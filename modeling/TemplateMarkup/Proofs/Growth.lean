import TemplateMarkup.Proofs.Implicit
import TemplateMarkup.Proofs.TagBlocks
import TemplateMarkup.Proofs.View

/-! # What a stretch of a parse may add

Often it does not matter which pieces a stretch adds, only that each of them is
of a certain sort. `Grows` says this and goes through the grammar as `Adds`
does. A code parser that keeps what it adds inside nodes of its own adds no tag
block, and neither does anything that scans. -/

namespace TemplateMarkup

/-- A node without tag blocks. -/
def Piece.Enclosed (p : Piece) : Prop := p.Free ∧ ∃ kind ps, p = .part kind ps

namespace Cursor

variable {σ : Type} {c d e : Cursor σ} {P Q : Piece → Prop} {kind : Kind}

/-- Tokens are accepted and not flushed. -/
def Accepts (c d : Cursor σ) : Prop :=
  ∃ ts : List Token, Adds (ts.map .leaf) c d ∧ d.pending = ts.reverse ++ c.pending

/-- Pieces of one sort are added. -/
def Grows (P : Piece → Prop) (c d : Cursor σ) : Prop := ∃ ps, Adds ps c d ∧ ∀ p ∈ ps, P p

namespace Accepts

theorem refl (c : Cursor σ) : Accepts c c := ⟨[], Adds.refl c, rfl⟩

theorem trans (h : Accepts c d) (h' : Accepts d e) : Accepts c e := by
  obtain ⟨ts, hts, hpending⟩ := h
  obtain ⟨us, hus, hpending'⟩ := h'
  have hadds := hts.trans hus
  rw [← List.map_append] at hadds
  exact ⟨ts ++ us, hadds, by rw [hpending', hpending]; simp⟩

theorem bump (c : Cursor σ) : Accepts c c.bump := by
  cases ha : c.ahead with
  | nil =>
    rw [bump_nil ha]
    exact refl c
  | cons t rest => exact ⟨c.held.reverse ++ [t], Adds.bump ha, by simp [Cursor.bump, ha]⟩

theorem bumpN (c : Cursor σ) (n : Nat) : Accepts c (c.bumpN n) := by
  induction n generalizing c with
  | zero => exact refl c
  | succ n ih => exact (bump c).trans (ih c.bump)

theorem bumpWhile (c : Cursor σ) (test : Token → Bool) : Accepts c (c.bumpWhile test) := bumpN c _

theorem eat (c : Cursor σ) (kind : Kind) : Accepts c (c.eat kind).2 := by
  unfold Cursor.eat
  split
  · exact bump c
  · exact refl c

theorem acceptRead (c : Cursor σ) : Accepts c c.acceptRead :=
  ⟨c.held.reverse, Adds.acceptRead c, by unfold Cursor.acceptRead; split <;> simp [Cursor.fail]⟩

theorem splitAfter (c : Cursor σ) (count : Nat) : Accepts c (c.splitAfter count) := by
  refine ⟨[], Adds.splitAfter c count, ?_⟩
  unfold Cursor.splitAfter
  split
  · rfl
  · split <;> rfl

theorem fail (c : Cursor σ) (fault : Fault) : Accepts c (c.fail fault) :=
  ⟨[], Adds.fail c fault, rfl⟩

theorem pending_ne_nil (h : Accepts c d) (hne : c.pending ≠ []) : d.pending ≠ [] := by
  obtain ⟨ts, -, hpending⟩ := h
  simp [hpending, hne]

theorem grows (h : Accepts c d) (hP : ∀ t, P (.leaf t)) : Grows P c d := by
  obtain ⟨ts, hts, -⟩ := h
  refine ⟨ts.map .leaf, hts, fun p hp => ?_⟩
  obtain ⟨t, -, rfl⟩ := List.mem_map.mp hp
  exact hP t

/-- What is accepted where nothing was waits to be a node. -/
theorem flush (h : Accepts c d) (hp : c.pending = []) (hk : kind ≠ .literal)
    (hP : ∀ ts : List Token, P (.part kind (ts.map .leaf))) : Grows P c (d.flush kind) := by
  obtain ⟨ts, hts, hpending⟩ := h
  rw [hp, List.append_nil] at hpending
  have hpieces : d.pendingPieces = ts.map .leaf := by rw [pendingPieces, hpending, List.reverse_reverse]
  rw [← hpieces] at hts
  by_cases hd : d.pending = []
  · rw [flush_of_pending hd]
    refine ⟨d.pendingPieces, hts, ?_⟩
    simp [pendingPieces, hd]
  · refine ⟨_, hts.flush_node hd hk, fun p hp => ?_⟩
    rw [List.mem_singleton.mp hp, hpieces]
    exact hP ts

end Accepts

theorem pending_bump_ne_nil (hne : c.ahead ≠ []) : c.bump.pending ≠ [] := by
  obtain ⟨t, rest, ha⟩ := List.exists_cons_of_ne_nil hne
  simp [Cursor.bump, ha]

namespace Grows

theorem refl (c : Cursor σ) : Grows P c c := ⟨[], Adds.refl c, fun _ hp => absurd hp List.not_mem_nil⟩

theorem trans (h : Grows P c d) (h' : Grows P d e) : Grows P c e := by
  obtain ⟨ps, hps, hP⟩ := h
  obtain ⟨qs, hqs, hQ⟩ := h'
  refine ⟨ps ++ qs, hps.trans hqs, fun p hp => ?_⟩
  rcases List.mem_append.mp hp with hp | hp
  · exact hP p hp
  · exact hQ p hp

/-- A stretch that shows nothing. -/
theorem silent (h : Adds [] c d) : Grows P c d := ⟨[], h, fun _ hp => absurd hp List.not_mem_nil⟩

theorem context (h : Grows P c d) : d.context = c.context := by
  obtain ⟨ps, hps, -⟩ := h
  exact hps.context

theorem flush_literal (h : Grows P c d) : Grows P c (d.flush .literal) :=
  h.trans (silent (Adds.flush_literal d))

/-- A stretch inside a node of its own. -/
theorem node (h : Grows P c.start.2 d) (kind : Kind) (hk : kind ≠ .literal)
    (hQ : ∀ ps, (∀ p ∈ ps, P p) → Q (.part kind ps)) : Grows Q c (d.complete c.start.1 kind) := by
  obtain ⟨ps, hps, hP⟩ := h
  refine ⟨_, hps.node kind hk, fun q hq => ?_⟩
  rw [List.mem_singleton.mp hq]
  exact hQ ps hP

end Grows

/-! ## Embedded code -/

theorem enclosed_part (hk : kind ≠ .tagBlock) {ps : List Piece} (h : ∀ p ∈ ps, p.Free) :
    (Piece.part kind ps).Enclosed := ⟨Piece.free_part hk h, kind, ps, rfl⟩

theorem free_leaves (ts : List Token) : ∀ p ∈ ts.map Piece.leaf, p.Free := by
  intro p hp
  obtain ⟨t, -, rfl⟩ := List.mem_map.mp hp
  exact Piece.free_leaf t

/-- What a call adds stands in nodes of its own, one at least if there is a token, and nothing is
left over. -/
structure Encloses (c d : Cursor σ) : Prop where
  pieces : ∃ ps, Adds ps c d ∧ (∀ p ∈ ps, p.Enclosed) ∧ (c.ahead ≠ [] → ps ≠ [])
  held : d.held = []
  pending : d.pending = []

theorem Encloses.grows (h : Encloses c d) (hP : ∀ p : Piece, p.Enclosed → P p) : Grows P c d := by
  obtain ⟨ps, hps, henclosed, -⟩ := h.pieces
  exact ⟨ps, hps, fun p hp => hP p (henclosed p hp)⟩

/-- One node is added, and nothing is left over. -/
structure AddsNode (c d : Cursor σ) : Prop where
  pieces : ∃ kind ps, Adds [.part kind ps] c d ∧ (Piece.part kind ps).Enclosed
  held : d.held = []
  pending : d.pending = []

/-- The token that is skipped becomes a node. -/
theorem addsNode_skip (hh : c.held = []) (hp : c.pending = []) (hne : c.ahead ≠ []) :
    AddsNode c (c.bump.flush .metacode) where
  pieces := by
    have hone : c.ahead.take 1 ≠ [] := by
      obtain ⟨t, rest, ha⟩ := List.exists_cons_of_ne_nil hne
      simp [ha]
    exact ⟨_, _, Adds.flush_bumpN hp hh hone (by decide), enclosed_part (by decide) (free_leaves _)⟩
  held := (held_flush _ _).trans (held_bump_of_held hh)
  pending := pending_flush _ _

theorem AddsNode.encloses (h : AddsNode c d) : Encloses c d := by
  obtain ⟨kind, ps, hadds, henclosed⟩ := h.pieces
  exact ⟨⟨_, hadds, by simpa using henclosed, fun _ => List.cons_ne_nil _ _⟩, h.held, h.pending⟩

theorem AddsNode.trans (h : AddsNode c d) (h' : AddsNode d e) : Encloses c e := by
  obtain ⟨kind, ps, hadds, henclosed⟩ := h.pieces
  obtain ⟨kind', ps', hadds', henclosed'⟩ := h'.pieces
  refine ⟨⟨_, hadds.trans hadds', ?_, fun _ => List.cons_ne_nil _ _⟩, h'.held, h'.pending⟩
  simpa using ⟨henclosed, henclosed'⟩

/-- A call that adds one node, or leaves the next token to be skipped. -/
theorem encloses_ensureProgress (hh : c.held = []) (hp : c.pending = [])
    (h : d = c ∨ AddsNode c d) : Encloses c (EmbeddedCode.ensureProgress c.position d) := by
  unfold EmbeddedCode.ensureProgress
  rcases h with rfl | hnode
  · split
    · next hstuck => exact (addsNode_skip hh hp (by simpa [atEnd] using hstuck.2)).encloses
    · next hmoved =>
      have hend : d.ahead = [] := by simpa [atEnd] using hmoved
      exact ⟨⟨[], Adds.refl d, fun _ hp => absurd hp List.not_mem_nil, fun hne => absurd hend hne⟩,
        hh, hp⟩
  · split
    · next hstuck =>
      exact hnode.trans (addsNode_skip hnode.held hnode.pending (by simpa [atEnd] using hstuck.2))
    · exact hnode.encloses

end Cursor

/-- Code that keeps what it adds inside nodes of its own. -/
structure EmbeddedCode.Enclosing {σ : Type} (code : EmbeddedCode σ) : Prop where
  block {c : Cursor σ} : c.held = [] → c.pending = [] → c.Encloses (code.block c)
  comment {c : Cursor σ} : c.held = [] → c.pending = [] → c.Encloses (code.comment c)

namespace Cursor

variable {σ : Type} {c d : Cursor σ} {kind : Kind}

theorem accepts_expressionBody (c : Cursor σ) : Accepts c c.expressionBody :=
  have keeps : AcceptKeeps (Accepts c) :=
    { bump := fun h => h.trans (.bump _)
      front := fun count h => (h.trans (.splitAfter _ count)).trans (.bump _) }
  keeps.expressionBody (fun d h => h.trans (.fail d _)) (.refl c)

/-- Accepted tokens as a node. -/
theorem Accepts.node (h : Accepts c.start.2 d) (hh : d.held = []) (hk : kind ≠ .literal)
    (htag : kind ≠ .tagBlock) : AddsNode c (d.flushRaw.complete c.start.1 kind) where
  pieces := by
    obtain ⟨ts, hts, -⟩ := h
    have hraw := hts.trans (Adds.flushRaw d)
    rw [List.append_nil] at hraw
    exact ⟨_, _, hraw.node kind hk, enclosed_part htag (free_leaves ts)⟩
  held := (held_complete _ _ _).trans hh
  pending := pending_complete _ _ _

theorem implicitExpression_cases (hh : c.held = []) :
    c.implicitExpression = c ∨ AddsNode c c.implicitExpression := by
  unfold implicitExpression
  dsimp only
  generalize c.runLength (·.kind == .whitespace) 0 = blanks
  split
  · right
    have hbody := (Accepts.bumpN c.start.2 (blanks + 1)).trans (accepts_expressionBody _)
    refine hbody.node ?_ (by decide) (by decide)
    exact held_expressionBody (held_bumpN ((held_start c).trans hh) _)
  · exact .inl rfl

theorem inlineComment_cases (hh : c.held = []) :
    c.inlineComment = c ∨ AddsNode c c.inlineComment := by
  unfold inlineComment
  dsimp only
  split
  · right
    have hbody := ((Accepts.bump c.start.2).trans
      (.bumpWhile _ (·.kind != .commentClose))).trans (.eat _ .commentClose)
    refine hbody.node ?_ (by decide) (by decide)
    exact held_eat (held_bumpN (held_bump_of_held ((held_start c).trans hh)) _) _
  · exact .inl rfl

theorem enclosing_implicit : (EmbeddedCode.implicit : EmbeddedCode σ).Enclosing where
  block hh hp := encloses_ensureProgress hh hp (implicitExpression_cases hh)
  comment hh hp := encloses_ensureProgress hh hp (inlineComment_cases hh)

end Cursor

end TemplateMarkup
