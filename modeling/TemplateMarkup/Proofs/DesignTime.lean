import TemplateMarkup.Proofs.Parallel.Expressions
import TemplateMarkup.Proofs.Parallel.Parses
import TemplateMarkup.Proofs.Parallel.Sources

/-! # Design time moves spacing only

A parse at design time leaves the blanks in front of code to the markup and the
spacing behind a unit to the host. Both runs come back together each time, so the
trees are the same once the spacing is out of them, with the literal text and the
unparsed rest that were nothing but spacing. -/

namespace TemplateMarkup

open Cursor

namespace Tree

mutual

/-- The tree without its whitespace and line endings, and then without the nodes of literal text and
of what is left to the host that have no tokens any more. -/
def withoutSpacing : Tree → List Tree
  | token kind text => if kind.isTrivia then [] else [token kind text]
  | node kind children =>
    let rest := withoutSpacingOf children
    if (kind = .literal ∨ kind = .unparsed) ∧ rest.isEmpty then [] else [node kind rest]

/-- Neighbouring trees without their spacing. -/
def withoutSpacingOf : List Tree → List Tree
  | [] => []
  | t :: ts => t.withoutSpacing ++ withoutSpacingOf ts

end

theorem withoutSpacingOf_append (a b : List Tree) :
    withoutSpacingOf (a ++ b) = withoutSpacingOf a ++ withoutSpacingOf b := by
  induction a with
  | nil => rfl
  | cons t a ih => rw [List.cons_append, withoutSpacingOf, withoutSpacingOf, ih, List.append_assoc]

theorem withoutSpacingOf_singleton (t : Tree) : withoutSpacingOf [t] = t.withoutSpacing :=
  List.append_nil _

theorem withoutSpacing_hollow {kind : Kind} (hk : kind = .literal ∨ kind = .unparsed)
    {children : List Tree} (h : withoutSpacingOf children = []) :
    (node kind children).withoutSpacing = [] := by
  rw [withoutSpacing, h]
  exact if_pos ⟨hk, rfl⟩

end Tree

namespace Comparison

open TemplateMarkup.Tree

variable {source : List Char} {options : Options} {editing caseSensitive : Bool}
  {hd : editing = true → options.designTime = false} {a b : List Tree}

/-- Trees of the same source are the same without their spacing. -/
theorem Resembles.withoutSpacing_eq (h : Resembles
      (.folding id (fun _ => rfl) source options editing caseSensitive hd fun _ _ => rfl) a b) :
    withoutSpacingOf a = withoutSpacingOf b := by
  induction h with
  | nil => rfl
  | append _ _ ih ih' => rw [withoutSpacingOf_append, withoutSpacingOf_append, ih, ih']
  | node kind _ ih =>
    rw [withoutSpacingOf_singleton, withoutSpacingOf_singleton, withoutSpacing, withoutSpacing, ih]
  | @token t u ht =>
    have htext : t.text = u.text := by
      by_cases hk : t.kind = .newline
      · exact (ht.newline hk).1
      · simpa [Likeness.Same, folding, Likeness.folding] using (ht.text hk).1
    rw [ofToken, ofToken, ht.kind, htext]
  | missing => rfl
  | blank _ ht | blank' _ ht =>
    rw [withoutSpacingOf_singleton, ofToken, withoutSpacing, if_pos ht]
    rfl
  | hollow _ hk _ ih => rw [withoutSpacingOf_singleton, withoutSpacing_hollow hk ih]; rfl
  | hollow' _ hk _ ih => rw [withoutSpacingOf_singleton, withoutSpacing_hollow hk ih.symm]; rfl

end Comparison

variable {σ : Type}

/-- With and without design time, a parse reports the same problems in the same order and has the
same tree but for its spacing. -/
theorem parseBlock_designTime (options : Options) (host : σ) (source : String) :
    ∃ p q, parseBlock { options with designTime := false } .implicit host source = .ok p ∧
      parseBlock { options with designTime := true } .implicit host source = .ok q ∧
      p.diagnostics = q.diagnostics ∧ p.tree.withoutSpacing = q.tree.withoutSpacing := by
  let k : Comparison := .folding id (fun _ => rfl) source.toList
    { options with designTime := false } true false (fun _ => rfl) fun _ _ => rfl
  obtain ⟨p, q, hp, hq, htree, hreports⟩ := Comparison.parses_resemble (agrees_implicit k) rfl
    (Likeness.alikes_lex_self source.toList) host none rfl
  refine ⟨p, q, Parser.parseBlock_of_parse hp, Parser.parseBlock_of_parse hq, ?_, ?_⟩
  · rw [← List.forall₂_eq_eq_eq]
    refine hreports.imp fun d e hr => ?_
    have hproblem : d.problem = e.problem := by
      rw [← d.problem.mapName_id, ← e.problem.mapName_id]
      exact hr.problem
    exact congr (congrArg Diagnostic.mk hproblem) hr.range_eq.symm
  · have hsame := htree.withoutSpacing_eq
    rwa [Tree.withoutSpacingOf_singleton, Tree.withoutSpacingOf_singleton] at hsame

end TemplateMarkup
