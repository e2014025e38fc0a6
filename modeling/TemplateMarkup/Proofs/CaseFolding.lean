import TemplateMarkup.Proofs.Leaves
import TemplateMarkup.Proofs.Parallel.Expressions
import TemplateMarkup.Proofs.Parallel.Parses
import TemplateMarkup.Proofs.Parallel.Sources

/-! # The case of letters does not change structure

Sources that differ in the case of ASCII letters only are parsed side by side:
every comparison of names ignores the case, and so does everything that is asked
of a single character. So the trees have the same nodes in the same ranges, and
the same is reported of the same ranges. -/

namespace TemplateMarkup

open Cursor

/-! ## Trees with alike leaves -/

namespace Comparison

variable {k : Comparison} {a b : List Tree}

/-- Unless one parse alone is made at design time, the trees differ in their leaves at most. -/
theorem Resembles.mapLeaves (he : k.editing = false) {f g : Kind → List Char → List Char}
    (htoken : ∀ {t u}, k.Alike t u → f t.kind t.text = g u.kind u.text)
    (hmissing : ∀ {kind}, kind ≠ .newline → f kind [] = g kind []) (h : k.Resembles a b) :
    Tree.mapLeavesOf f a = Tree.mapLeavesOf g b := by
  induction h with
  | nil => rfl
  | append _ _ ih ih' => rw [Tree.mapLeavesOf_append, Tree.mapLeavesOf_append, ih, ih']
  | node kind _ ih => exact congrArg (fun children => [Tree.node kind children]) ih
  | @token t u h =>
    have htext := htoken h
    simp only [Tree.mapLeavesOf, Tree.ofToken, Tree.mapLeaves, htext, h.kind]
  | missing hk => simp only [Tree.mapLeavesOf, Tree.mapLeaves, hmissing hk]
  | blank hedit | hollow hedit | blank' hedit | hollow' hedit => cases he.symm.trans hedit

end Comparison

/-- The diagnostic with another name in its problem. -/
def Diagnostic.mapName (f : List Char → List Char) (d : Diagnostic) : Diagnostic :=
  { d with problem := d.problem.mapName f }

namespace Text

theorem toLower_toLower (c : Char) : c.toLower.toLower = c.toLower :=
  apply_toLower Char.toLower (by decide) c

end Text

/-! ## Tokens of such sources -/

namespace Token

variable {form : Form} {a b read read' : List Char}

/-- Tokens of the same kinds with the same texts in lower case. -/
def SameFolded (t u : Token) : Prop :=
  u.kind = t.kind ∧ Text.foldCase t.text = Text.foldCase u.text

theorem lexFrom_foldCase (hread : Text.foldCase read = Text.foldCase read')
    (h : Text.foldCase a = Text.foldCase b) :
    List.Forall₂ SameFolded (lexFrom form read a) (lexFrom form read' b) := by
  have hreverse {x y : List Char} (hxy : Text.foldCase x = Text.foldCase y) :
      Text.foldCase x.reverse = Text.foldCase y.reverse := by
    simpa [Text.foldCase] using hxy
  induction a generalizing form read read' b with
  | nil =>
    obtain rfl : b = [] := List.map_eq_nil_iff.mp h.symm
    exact .cons ⟨rfl, hreverse hread⟩ .nil
  | cons c a ih =>
    cases b with
    | nil => cases h
    | cons d b =>
      obtain ⟨hcd, hab⟩ := List.cons.inj h
      have hform := Form.form_toLower form c
      have hform' := Form.form_toLower form d
      rw [hcd] at hform
      rw [lexFrom, lexFrom, ← hform.2, hform'.2, ← hform.1, hform'.1]
      cases form.extend? d with
      | none => exact .cons ⟨rfl, hreverse hread⟩ (ih (by simp [Text.foldCase, hcd]) hab)
      | some longer =>
        refine ih ?_ hab
        rw [Text.foldCase, List.map_cons, hcd]
        exact congrArg (d.toLower :: ·) hread

theorem lex_foldCase (h : Text.foldCase a = Text.foldCase b) :
    List.Forall₂ SameFolded (lex a) (lex b) := by
  cases a with
  | nil =>
    obtain rfl : b = [] := List.map_eq_nil_iff.mp h.symm
    exact .nil
  | cons c a =>
    cases b with
    | nil => cases h
    | cons d b =>
      obtain ⟨hcd, hab⟩ := List.cons.inj h
      have hform : Form.ofChar c = Form.ofChar d := by
        rw [← (Form.form_toLower .run c).1, hcd, (Form.form_toLower .run d).1]
      rw [lex, lex, hform]
      exact lexFrom_foldCase (by simp [Text.foldCase, hcd]) hab

/-- A line ending has no letters. -/
theorem Spelled.foldCase_text {t : Token} (h : t.Spelled) (hk : t.kind = .newline) :
    Text.foldCase t.text = t.text := by
  have hsame : ∀ c ∈ t.text, c.toLower = id c := fun c hc => by
    rcases (h.lineEnd c hc).mpr hk with rfl | rfl <;> rfl
  rw [Text.foldCase, List.map_congr_left hsame, List.map_id]

theorem SameFolded.alikes {ts us : List Token} (h : List.Forall₂ SameFolded ts us)
    (ht : ∀ t ∈ ts, t.Spelled) (hu : ∀ u ∈ us, u.Spelled) :
    (Likeness.folding Char.toLower Text.toLower_toLower).Alikes ts us := by
  induction h with
  | nil => exact .nil
  | cons hhead _ ih =>
    obtain ⟨ht, hts⟩ := List.forall_mem_cons.mp ht
    obtain ⟨hu, hus⟩ := List.forall_mem_cons.mp hu
    refine .cons (.of_spelled ht hhead.1 hhead.2 fun hk => ?_) (ih hts hus)
    rw [← ht.foldCase_text hk, hhead.2, hu.foldCase_text (hhead.1.trans hk)]

end Token

/-! ## Parses of such sources -/

variable {σ : Type}

/-- Results that differ in the case of letters at most: the same nodes and leaves at the same depths
and in the same ranges, the same split into a unit and a rest, and the same reports of the same
ranges. -/
structure Parse.SameButCase (p q : Parse σ) : Prop where
  outline : p.tree.outline.map (·.mapText Text.foldCase) =
    q.tree.outline.map (·.mapText Text.foldCase)
  markup : p.markupText?.map Text.foldCase = q.markupText?.map Text.foldCase
  unparsed : p.unparsedText?.map Text.foldCase = q.unparsedText?.map Text.foldCase
  diagnostics : p.diagnostics.map (·.mapName Text.foldCase) =
    q.diagnostics.map (·.mapName Text.foldCase)

/-- Sources that differ in the case of letters at most have such results, with the same options, as
units of markup and as nested regions whose sequences are compared without their case. -/
theorem parse_sameButCase (options : Options) (host : σ) (nesting? : Option Nesting)
    (hcase : ∀ nesting ∈ nesting?, nesting.caseSensitive = false) {source source' : String}
    (h : Text.foldCase source.toList = Text.foldCase source'.toList) :
    ∃ p q, Parser.parse ⟨some options, .implicit, host⟩ nesting? source = .ok p ∧
      Parser.parse ⟨some options, .implicit, host⟩ nesting? source' = .ok q ∧ p.SameButCase q := by
  let k : Comparison := .folding Char.toLower Text.toLower_toLower source.toList options false
    false (fun h => absurd h Bool.false_ne_true) fun h => absurd h Bool.false_ne_true
  have hlex : k.Alikes (Token.lex source.toList) (Token.lex source'.toList) :=
    Token.SameFolded.alikes (Token.lex_foldCase h) (fun _ => Token.spelled_of_mem_lex)
      fun _ => Token.spelled_of_mem_lex
  have hrule : k.caseSensitive = nesting?.any Nesting.caseSensitive := by
    cases nesting? with
    | none => rfl
    | some nesting => exact (hcase nesting rfl).symm
  obtain ⟨p, q, hp, hq, htree, hreports⟩ :=
    Comparison.parses_resemble (agrees_implicit k) rfl hlex host nesting? hrule
  rw [Comparison.otherOptions_eq rfl] at hq
  have htext {t u : Token} (ht : k.Alike t u) : Text.foldCase t.text = Text.foldCase u.text := by
    by_cases hk : t.kind = .newline
    · rw [(ht.newline hk).1]
    · exact (ht.text hk).1
  have hleaves : p.tree.mapLeaves (fun _ => Text.foldCase) =
      q.tree.mapLeaves fun _ => Text.foldCase :=
    (List.cons.inj (htree.mapLeaves rfl htext fun _ => rfl)).1
  have hwidth (a : List Char) : Text.width (Text.foldCase a) = Text.width a :=
    Text.width_foldCase a
  have hsplit := Parse.split_of_mapLeaves (fun a b => List.map_append) rfl hleaves
  refine ⟨p, q, hp, hq, ?_, hsplit.1, hsplit.2, ?_⟩
  · rw [← Tree.outline_mapLeaves hwidth, ← Tree.outline_mapLeaves hwidth, hleaves]
  · rw [← List.forall₂_eq_eq_eq, List.forall₂_map_left_iff, List.forall₂_map_right_iff]
    refine hreports.imp fun d e hr => ?_
    rw [Diagnostic.mapName, Diagnostic.mapName, hr.range_eq]
    exact congrArg (Diagnostic.mk · d.range) hr.problem

/-- A region with an unclosed element and a script, and the same in other letters. -/
theorem parse_sameButCase_region :
    let nesting : Nesting := ⟨"begin", "end", false⟩
    let source := "<p>Begin <SCRIPT>@x</script> end @If(a) END"
    let source' := "<P>bEGIN <script>@X</Script> End @iF(A) end"
    (∀ n ∈ some nesting, n.caseSensitive = false) ∧
    Text.foldCase source.toList = Text.foldCase source'.toList ∧
    ∃ p q, Parser.parse ⟨some {}, .implicit, ()⟩ (some nesting) source = .ok p ∧
      Parser.parse ⟨some {}, .implicit, ()⟩ (some nesting) source' = .ok q ∧ p.SameButCase q :=
  ⟨by decide, by decide, parse_sameButCase {} () (some ⟨"begin", "end", false⟩) (by decide)
    (by decide)⟩

end TemplateMarkup
