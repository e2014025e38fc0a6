import TemplateMarkup.Proofs.Growth
import TemplateMarkup.Proofs.Moves
import TemplateMarkup.Proofs.Placement

/-! # Trees that are added in their place

`Plants` says of a stretch of a parse that it adds to the innermost open node,
and adds only what may stand there. Unlike `Adds` it speaks of trees and not of
pieces, so that literal text counts as the nodes that it is flushed into. -/

namespace TemplateMarkup

open TemplateMarkup.Tree

variable {place kind : Kind}

namespace Tree

theorem placed_flushTrees {ts : List Token} (hplace : place.mayHold kind = true)
    (hkind : kind.holdsTokens = true) (htext : ∀ t ∈ ts.reverse, t.text ≠ []) :
    ∀ t ∈ Cursor.flushTrees kind ts, Placed place t := by
  intro t ht
  unfold Cursor.flushTrees at ht
  split at ht
  · cases ht
  · next hne =>
    rw [List.mem_singleton.mp ht]
    exact .leaves hplace hkind (by simpa using hne) htext

end Tree

namespace Cursor

variable {σ : Type} {c d e : Cursor σ}

/-- Only trees that may stand in a node of the kind are added to the innermost open node. -/
def Plants (place : Kind) (c d : Cursor σ) : Prop :=
  ∀ ⦃f : List Tree⦄ ⦃fs : List (List Tree)⦄, Shows c (f :: fs) →
    ∃ ts, Shows d ((f ++ ts) :: fs) ∧ ∀ t ∈ ts, Placed place t

/-- The node that was started last becomes a tree behind the text accepted before it. -/
theorem Shows.node {f inner : List Tree} {fs : List (List Tree)} (hs : Shows c (f :: fs))
    (hd : Shows d (inner :: (f ++ flushTrees .literal c.pending) :: fs)) (kind : Kind) :
    Shows (d.complete c.start.1 kind) ((f ++ (flushTrees .literal c.pending ++
      [.node kind (inner ++ flushTrees .literal d.pending)])) :: fs) := by
  rw [← List.append_assoc]
  exact hd.complete hs.start.2 kind

/-- A report is nothing that the tree could show. -/
theorem Shows.report {frames : List (List Tree)} (h : Shows c frames) (problem : Problem)
    (range : Range) : Shows (c.report problem range) frames := by
  refine h.same ?_ ?_ (tokens_report c _ _) <;> unfold Cursor.report <;> dsimp only <;> split <;> rfl

namespace Plants

theorem same (hevents : d.events = c.events) (hflushed : d.flushed = c.flushed)
    (htokens : d.tokens = c.tokens) : Plants place c d := by
  intro f fs hs
  refine ⟨[], ?_, fun _ ht => absurd ht List.not_mem_nil⟩
  rw [List.append_nil]
  exact hs.same hevents hflushed htokens

theorem refl (c : Cursor σ) : Plants place c c := same rfl rfl rfl

theorem fail (c : Cursor σ) (fault : Fault) : Plants place c (c.fail fault) := same rfl rfl rfl

theorem trans (h : Plants place c d) (h' : Plants place d e) : Plants place c e := by
  intro f fs hs
  obtain ⟨ts, hts, hplaced⟩ := h hs
  obtain ⟨us, hus, hplaced'⟩ := h' hts
  rw [List.append_assoc] at hus
  refine ⟨ts ++ us, hus, fun t ht => ?_⟩
  rcases List.mem_append.mp ht with ht | ht
  · exact hplaced t ht
  · exact hplaced' t ht

theorem report (h : Plants place c d) (problem : Problem) (range : Range) :
    Plants place c (d.report problem range) := by
  intro f fs hs
  obtain ⟨ts, hts, hplaced⟩ := h hs
  exact ⟨ts, hts.report problem range, hplaced⟩

theorem moves (h : Plants place c d) (hmoves : Moves d e) : Plants place c e := by
  intro f fs hs
  obtain ⟨ts, hts, hplaced⟩ := h hs
  exact ⟨ts, hmoves.shows hts, hplaced⟩

theorem flush (h : Plants place c d) (hplace : place.mayHold kind = true)
    (hkind : kind.holdsTokens = true) : Plants place c (d.flush kind) := by
  refine h.trans fun f fs hs => ?_
  exact ⟨_, hs.flush kind, placed_flushTrees hplace hkind hs.pending_sane⟩

/-- Literal text may be flushed wherever nodes may stand. -/
theorem flush_literal (h : Plants place c d) (hplace : place.holdsNodes = true) :
    Plants place c (d.flush .literal) := h.flush (Kind.mayHold_literal hplace) rfl

/-- A `>` that is missing from a tag. -/
theorem missing (h : Plants .tagBlock c d) : Plants .tagBlock c (d.missing .closeAngle) := by
  refine h.trans fun f fs hs => ?_
  refine ⟨_, (Emits.missing d .closeAngle).shows hs, fun t ht => ?_⟩
  rcases List.mem_append.mp ht with ht | ht
  · exact placed_flushTrees rfl rfl hs.pending_sane t ht
  · rw [List.mem_singleton.mp ht]
    exact .missing

/-- The text accepted before a node lands in front of it. -/
theorem placed_node {f inner : List Tree} {fs : List (List Tree)} (hs : Shows c (f :: fs))
    (hnode : Placed place (.node kind inner)) :
    ∀ t ∈ flushTrees .literal c.pending ++ [.node kind inner], Placed place t := by
  intro t ht
  rcases List.mem_append.mp ht with ht | ht
  · have hplace := Kind.holdsNodes_of_mayHold hnode.filled.1
    exact placed_flushTrees (Kind.mayHold_literal hplace) rfl hs.pending_sane t ht
  · rw [List.mem_singleton.mp ht]
    exact hnode

/-- A stretch inside a node of its own. -/
theorem node (h : Plants kind c.start.2 d) (hplace : place.mayHold kind = true)
    (hkind : kind.holdsNodes = true) (hvalue : kind ≠ .attributeBlock) :
    Plants place c (d.complete c.start.1 kind) := by
  intro f fs hs
  obtain ⟨inner, hinner, hplaced⟩ := h hs.start.1
  rw [List.nil_append] at hinner
  have hfill : ∀ t ∈ inner ++ flushTrees .literal d.pending, Placed kind t := by
    intro t ht
    rcases List.mem_append.mp ht with ht | ht
    · exact hplaced t ht
    · exact placed_flushTrees (Kind.mayHold_literal hkind) rfl hinner.pending_sane t ht
  have hnone := countP_of_placed hfill hvalue
  exact ⟨_, hs.node hinner kind, placed_node hs (.node hplace hkind hfill (by omega))⟩

/-- Tokens as a node of their own. -/
theorem leaves (h : Moves c.start.2 d) (hne : d.pending ≠ []) (hplace : place.mayHold kind = true)
    (hkind : kind.holdsTokens = true) : Plants place c (d.flushRaw.complete c.start.1 kind) := by
  intro f fs hs
  have hread := h.shows hs.start.1
  have hleaves := (Emits.flushRaw d).shows hread
  rw [List.nil_append] at hleaves
  have hnode := hs.node hleaves kind
  rw [show d.flushRaw.pending = [] from rfl, flushTrees_nil, List.append_nil] at hnode
  exact ⟨_, hnode, placed_node hs (.leaves hplace hkind (by simpa using hne) hread.pending_sane)⟩

end Plants

/-! ## Embedded code -/

/-- An implicit expression is a node of tokens, wherever it stands. -/
theorem plants_implicitExpression (hplace : place.holdsNodes = true) :
    Plants place c c.implicitExpression := by
  unfold implicitExpression
  dsimp only
  generalize c.runLength (·.kind == .whitespace) 0 = blanks
  split
  · next hk =>
    have hmoves := (Moves.bumpN c.start.2 (blanks + 1)).trans (.expressionBody _)
    refine .leaves hmoves ?_ hplace rfl
    have hne : c.start.2.ahead ≠ [] := by
      rw [ahead_start]
      exact ahead_ne_nil_of_nth hk (by decide)
    exact Accepts.pending_ne_nil ((Accepts.bumpN _ blanks).trans (accepts_expressionBody _))
      (pending_bump_ne_nil hne)
  · exact .refl c

theorem plants_inlineComment (hplace : place.holdsNodes = true) : Plants place c c.inlineComment := by
  unfold inlineComment
  dsimp only
  split
  · next hk =>
    have hmoves := ((Moves.bump c.start.2).trans (.bumpWhile _ (·.kind != .commentClose))).trans
      (.eat _ .commentClose)
    refine .leaves hmoves ?_ hplace rfl
    have hne : c.start.2.ahead ≠ [] := by
      rw [ahead_start]
      exact ahead_ne_nil_of_at hk (by decide)
    exact Accepts.pending_ne_nil
      ((Accepts.bumpWhile _ (·.kind != .commentClose)).trans (.eat _ .commentClose))
      (pending_bump_ne_nil hne)
  · exact .refl c

theorem Plants.ensureProgress (hplace : place.holdsNodes = true) (h : Plants place c d) (before : Nat) :
    Plants place c (EmbeddedCode.ensureProgress before d) := by
  unfold EmbeddedCode.ensureProgress
  split
  · exact (h.moves (.bump d)).flush hplace rfl
  · exact h

end Cursor

/-- Code that adds only what may stand wherever nodes may. -/
structure EmbeddedCode.Planting {σ : Type} (code : EmbeddedCode σ) : Prop where
  block {place : Kind} (c : Cursor σ) : place.holdsNodes = true → Cursor.Plants place c (code.block c)
  comment {place : Kind} (c : Cursor σ) : place.holdsNodes = true →
    Cursor.Plants place c (code.comment c)

theorem Cursor.planting_implicit {σ : Type} : (EmbeddedCode.implicit : EmbeddedCode σ).Planting where
  block c hplace := (plants_implicitExpression hplace).ensureProgress hplace c.position
  comment c hplace := (plants_inlineComment hplace).ensureProgress hplace c.position

end TemplateMarkup
