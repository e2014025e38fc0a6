import TemplateMarkup.Cursor.Lemmas
import TemplateMarkup.Proofs.Pieces
import TemplateMarkup.Token.Lexer

/-! # Following the tree as it grows

As long as nodes are closed in the order opposite to that in which they were
started, the events of a cursor are those of a stack of open nodes, each with
the trees it has so far. `Views` says what stands in these nodes, accepted
tokens included, and each operation has one lemma. `Adds` is a stretch of the
parse that only adds pieces to the innermost node. -/

namespace TemplateMarkup

/-- What holds of every token of a source, and of every part of one. -/
structure Token.Sane (t : Token) : Prop where
  text_ne_nil : t.text ≠ []
  text_of_openAngle : t.kind = .openAngle → t.text = ['<']
  kind_ne : t.kind ≠ .endOfInput

/-- A `<` is too short to be split. -/
theorem Token.divisible_sane : Divisible Sane := by
  intro kind a b ha hb h
  have hkind : kind ≠ .openAngle := by
    intro hk
    have hlen := congrArg List.length (h.text_of_openAngle hk)
    have := List.length_pos_iff.mpr ha
    have := List.length_pos_iff.mpr hb
    simp only [List.length_append, List.length_singleton] at hlen
    omega
  exact ⟨⟨ha, fun hk => absurd hk hkind, h.kind_ne⟩, ⟨hb, fun hk => absurd hk hkind, h.kind_ne⟩⟩

/-- An open node: its place among the events and what stands in it. -/
structure Frame where
  marker : Marker
  pieces : List Piece

namespace Cursor

open TemplateMarkup.Tree

variable {σ : Type} {c d e : Cursor σ} {m : Marker} {ps qs : List Piece} {outer : List Frame}

/-- The source text that is not accepted. -/
def rest (c : Cursor σ) : List Char := Token.textOf (c.held.reverse ++ c.ahead)

/-- Accepted tokens as pieces. -/
def pendingPieces (c : Cursor σ) : List Piece := c.pending.reverse.map .leaf

/-- The events of open nodes, the innermost first. -/
def framesEvents : List (List Tree) → List Event
  | [] => []
  | f :: fs => framesEvents fs ++ .placeholder :: eventsOf f

/-- The texts of the leaves in open nodes. -/
def framesTexts : List (List Tree) → List (List Char)
  | [] => []
  | f :: fs => framesTexts fs ++ leafTextsOf f

/-- The open nodes hold exactly these trees. -/
structure Shows (c : Cursor σ) (frames : List (List Tree)) : Prop where
  events : c.events.toList = framesEvents frames
  texts : c.flushed.reverse.map Token.text = framesTexts frames
  sane : ∀ t ∈ c.tokens, t.Sane

/-- The tree that a flush makes of accepted tokens; none without a token. -/
def flushTrees (kind : Kind) (pending : List Token) : List Tree :=
  if pending = [] then [] else [.node kind (pending.reverse.map ofToken)]

@[simp] theorem flushTrees_nil (kind : Kind) : flushTrees kind [] = [] := rfl

theorem piecesOf_flushTrees (ts : List Token) :
    piecesOf (flushTrees .literal ts) = ts.reverse.map .leaf := by
  unfold flushTrees
  split
  · next h => simp [h, piecesOf]
  · simp [-List.map_reverse, piecesOf, pieces]

namespace Shows

variable {f g : List Tree} {fs : List (List Tree)}

theorem pending_sane (h : Shows c fs) : ∀ t ∈ c.pending.reverse, t.text ≠ [] := by
  intro t ht
  exact (h.sane t (by simp only [tokens, List.mem_append]; exact .inl (.inl (.inr ht)))).text_ne_nil

theorem same (h : Shows c fs) (hevents : d.events = c.events) (hflushed : d.flushed = c.flushed)
    (htokens : d.tokens = c.tokens) : Shows d fs :=
  ⟨by rw [hevents, h.events], by rw [hflushed, h.texts], by rw [htokens]; exact h.sane⟩

/-- Accepted tokens become trees in the innermost node. -/
theorem add (h : Shows c (f :: fs)) (new : List Tree)
    (hevents : d.events.toList = c.events.toList ++ eventsOf new)
    (hflushed : d.flushed = c.pending ++ c.flushed) (htokens : d.tokens = c.tokens)
    (htexts : leafTextsOf new = c.pending.reverse.map Token.text) :
    Shows d ((f ++ new) :: fs) := by
  refine ⟨?_, ?_, by rw [htokens]; exact h.sane⟩
  · rw [hevents, h.events]
    simp [framesEvents]
  · have ht := h.texts
    rw [framesTexts] at ht ⊢
    rw [hflushed, List.reverse_append, List.map_append, leafTextsOf_append, htexts,
      ← List.append_assoc, ← ht]

theorem flush (h : Shows c (f :: fs)) (kind : Kind) :
    Shows (c.flush kind) ((f ++ flushTrees kind c.pending) :: fs) := by
  by_cases hne : c.pending = []
  · rw [flush_of_pending hne, hne, flushTrees_nil, List.append_nil]
    exact h
  · have hp := h.pending_sane
    rw [flushTrees, if_neg hne]
    refine h.add _ ?_ (flushed_flush c kind) (tokens_flush c kind) ?_
    · rw [events_flush, flushEvents, if_neg (by simpa using hne)]
      simp [-List.map_reverse, eventsOf, Tree.events, eventsOf_map_ofToken hp]
    · simp [-List.map_reverse, leafTextsOf, leafTexts, leafTextsOf_map_ofToken hp]

/-- A started node comes behind what was accepted before it. -/
theorem start (h : Shows c (f :: fs)) :
    Shows c.start.2 ([] :: (f ++ flushTrees .literal c.pending) :: fs) ∧
      c.start.1.index = (framesEvents ((f ++ flushTrees .literal c.pending) :: fs)).length := by
  have hflush := h.flush .literal
  refine ⟨⟨?_, ?_, by rw [tokens_start]; exact h.sane⟩, ?_⟩
  · rw [framesEvents, ← hflush.events]
    simp [Cursor.start, eventsOf]
  · rw [framesTexts, ← hflush.texts]
    simp [Cursor.start, leafTextsOf]
  · rw [← hflush.events]
    simp [Cursor.start]

/-- The placeholder of the innermost node stands right behind the events of the nodes around. -/
theorem placeholder {m : Marker} (h : Shows c (f :: fs)) (hm : m.index = (framesEvents fs).length) :
    (c.flush .literal).events[m.index]? = some .placeholder := by
  rw [← Array.getElem?_toList, (h.flush .literal).events, hm, framesEvents]
  simp

/-- The innermost node becomes a tree of the node around it. -/
theorem complete {m : Marker} (h : Shows c (f :: g :: fs))
    (hm : m.index = (framesEvents (g :: fs)).length) (kind : Kind) :
    Shows (c.complete m kind) ((g ++ [.node kind (f ++ flushTrees .literal c.pending)]) :: fs) := by
  have hflush := h.flush .literal
  have hlist : (c.flush .literal).events.toList = framesEvents (g :: fs) ++
      .placeholder :: eventsOf (f ++ flushTrees .literal c.pending) := hflush.events
  have hget := h.placeholder hm
  have hflushed : (c.complete m kind).flushed = (c.flush .literal).flushed := by
    rw [complete_eq hget]
  refine ⟨?_, ?_, by rw [tokens_complete]; exact h.sane⟩
  · rw [complete_eq hget]
    simp only [Array.toList_push, Array.toList_setIfInBounds, hlist, hm]
    rw [List.set_append_right _ _ (Nat.le_refl _), Nat.sub_self]
    simp [framesEvents, eventsOf, Tree.events]
  · rw [hflushed, hflush.texts]
    simp [framesTexts, leafTextsOf, leafTexts]

end Shows

/-- The trees in open nodes are these pieces. -/
def Matches : List (List Tree) → List Frame → Prop
  | [], [] => True
  | f :: fs, frame :: frames =>
    frame.marker.index = (framesEvents fs).length ∧ frame.pieces = piecesOf f ∧ Matches fs frames
  | _, _ => False

/-- What stands in the open nodes, the innermost of which has the marker `m`. -/
def Views (c : Cursor σ) (m : Marker) (ps : List Piece) (outer : List Frame) : Prop :=
  ∃ f fs, Shows c (f :: fs) ∧ m.index = (framesEvents fs).length ∧
    ps = piecesOf f ++ c.pendingPieces ∧ Matches fs outer

namespace Views

theorem sane (h : Views c m ps outer) : ∀ t ∈ c.tokens, t.Sane := by
  obtain ⟨f, fs, hs, -⟩ := h
  exact hs.sane

/-- Tokens are accepted, or nothing happens that the tree could show. -/
theorem accept (h : Views c m ps outer) (ts : List Token) (hevents : d.events = c.events)
    (hflushed : d.flushed = c.flushed) (hpending : d.pending = ts.reverse ++ c.pending)
    (hsane : ∀ t ∈ d.tokens, t.Sane) : Views d m (ps ++ ts.map .leaf) outer := by
  obtain ⟨f, fs, hs, hm, hps, hout⟩ := h
  refine ⟨f, fs, ⟨by rw [hevents, hs.events], by rw [hflushed, hs.texts], hsane⟩, hm, ?_, hout⟩
  rw [hps, pendingPieces, pendingPieces, hpending]
  simp

theorem same (h : Views c m ps outer) (hevents : d.events = c.events)
    (hflushed : d.flushed = c.flushed) (hpending : d.pending = c.pending)
    (hsane : ∀ t ∈ d.tokens, t.Sane) : Views d m ps outer := by
  have hd := h.accept [] hevents hflushed (by rw [hpending]; rfl) hsane
  simpa using hd

/-- Accepted tokens become trees that show as before. -/
theorem flushed (h : Views c m ps outer) (new : List Tree) (hevents : d.events.toList =
      c.events.toList ++ eventsOf new) (hflushed : d.flushed = c.pending ++ c.flushed)
    (hpending : d.pending = []) (htokens : d.tokens = c.tokens)
    (htexts : leafTextsOf new = c.pending.reverse.map Token.text) (hps : qs ++ c.pendingPieces = ps) :
    Views d m (qs ++ piecesOf new) outer := by
  obtain ⟨f, fs, hs, hm, hf, hout⟩ := h
  have hq : qs = piecesOf f := List.append_cancel_right (hps.trans hf)
  exact ⟨f ++ new, fs, hs.add new hevents hflushed htokens htexts, hm,
    by simp [hq, pendingPieces, hpending], hout⟩

theorem flushRaw (h : Views c m ps outer) : Views c.flushRaw m ps outer := by
  obtain ⟨f, fs, hs, hm, hf, hout⟩ := h
  have hp := hs.pending_sane
  have hv := flushed (d := c.flushRaw) ⟨f, fs, hs, hm, hf, hout⟩ (c.pending.reverse.map ofToken)
    (by rw [events_flushRaw, eventsOf_map_ofToken hp]) rfl rfl (tokens_flushRaw c)
    (leafTextsOf_map_ofToken hp) hf.symm
  rwa [piecesOf_map_ofToken, ← pendingPieces, ← hf] at hv

/-- The accepted tokens become a node of the kind. -/
theorem flush_node (h : Views c m (qs ++ c.pendingPieces) outer) {kind : Kind}
    (hne : c.pending ≠ []) (hk : kind ≠ .literal) :
    Views (c.flush kind) m (qs ++ [.part kind c.pendingPieces]) outer := by
  obtain ⟨f, fs, hs, hm, hf, hout⟩ := h
  refine ⟨_, fs, hs.flush kind, hm, ?_, hout⟩
  rw [piecesOf_append, ← List.append_cancel_right hf]
  simp [-List.map_reverse, flushTrees, hne, piecesOf, pieces, hk, pendingPieces]

/-- Literal text does not show. -/
theorem flush_literal (h : Views c m ps outer) : Views (c.flush .literal) m ps outer := by
  obtain ⟨f, fs, hs, hm, hf, hout⟩ := h
  refine ⟨_, fs, hs.flush .literal, hm, ?_, hout⟩
  rw [hf, piecesOf_append, piecesOf_flushTrees]
  simp [pendingPieces]

theorem start (h : Views c m ps outer) :
    Views c.start.2 c.start.1 [] (⟨m, ps⟩ :: outer) := by
  obtain ⟨f, fs, hs, hm, hf, hout⟩ := h
  obtain ⟨hstart, hindex⟩ := hs.start
  refine ⟨[], _, hstart, hindex, ?_, hm, ?_, hout⟩
  · simp [Cursor.start, pendingPieces, piecesOf]
  · rw [hf, piecesOf_append, piecesOf_flushTrees]
    rfl

theorem complete {frame : Frame} (h : Views c m ps (frame :: outer)) (kind : Kind)
    (hk : kind ≠ .literal) :
    Views (c.complete m kind) frame.marker (frame.pieces ++ [.part kind ps]) outer := by
  obtain ⟨f, fs, hs, hm, hf, hout⟩ := h
  cases fs with
  | nil => exact hout.elim
  | cons g fs =>
    obtain ⟨hframe, hgs, hmatch⟩ := hout
    refine ⟨_, fs, hs.complete hm kind, hframe, ?_, hmatch⟩
    have hinner : ps = piecesOf (f ++ flushTrees .literal c.pending) := by
      rw [hf, piecesOf_append, piecesOf_flushTrees]
      rfl
    simp [pendingPieces, hgs, hinner, piecesOf, pieces, hk]

theorem lastNode_complete (h : Views c m ps outer) (kind : Kind) :
    (c.complete m kind).lastNode = some kind := by
  obtain ⟨f, fs, hs, hm, -⟩ := h
  rw [complete_eq (hs.placeholder hm)]

end Views

/-! ## Stretches that add to the innermost node -/

/-- From one cursor to the other, these pieces are added to the innermost node
and nothing else about the tree, the context or the diagnostics changes. -/
structure Adds (ps : List Piece) (c d : Cursor σ) : Prop where
  view : ∀ {m qs outer}, Views c m qs outer → Views d m (qs ++ ps) outer
  context : d.context = c.context
  diagnostics : d.diagnostics = c.diagnostics
  rest : c.rest = Piece.textOf ps ++ d.rest

theorem sane_splitAfter (h : ∀ t ∈ c.tokens, t.Sane) (count : Nat) :
    ∀ t ∈ (c.splitAfter count).tokens, t.Sane :=
  forall_tokens_splitAfter Token.divisible_sane h count

namespace Adds

theorem refl (c : Cursor σ) : Adds [] c c :=
  ⟨fun h => by rwa [List.append_nil], rfl, rfl, rfl⟩

theorem trans (h : Adds ps c d) (h' : Adds qs d e) : Adds (ps ++ qs) c e where
  view hv := by
    rw [← List.append_assoc]
    exact h'.view (h.view hv)
  context := h'.context.trans h.context
  diagnostics := h'.diagnostics.trans h.diagnostics
  rest := by rw [h.rest, h'.rest, Piece.textOf_append, List.append_assoc]

/-- Tokens are accepted. -/
theorem accept (ts : List Token) (hevents : d.events = c.events) (hflushed : d.flushed = c.flushed)
    (hpending : d.pending = ts.reverse ++ c.pending) (htokens : d.tokens = c.tokens)
    (hcontext : d.context = c.context) (hdiagnostics : d.diagnostics = c.diagnostics)
    (hrest : c.held.reverse ++ c.ahead = ts ++ (d.held.reverse ++ d.ahead)) :
    Adds (ts.map .leaf) c d where
  view hv := hv.accept ts hevents hflushed hpending (by rw [htokens]; exact hv.sane)
  context := hcontext
  diagnostics := hdiagnostics
  rest := by rw [Cursor.rest, hrest, Token.textOf_append, Piece.textOf_map_leaf, Cursor.rest]

theorem acceptRead (c : Cursor σ) : Adds (c.held.reverse.map .leaf) c c.acceptRead := by
  refine accept c.held.reverse ?_ ?_ ?_ (tokens_acceptRead c) (context_acceptRead c) ?_ ?_ <;>
    unfold Cursor.acceptRead <;> split <;> simp [Cursor.fail]

theorem advance (c : Cursor σ) : Adds [] c c.advance := by
  refine accept [] ?_ ?_ ?_ (tokens_advance c) (context_advance c) ?_ ?_ <;>
    unfold Cursor.advance <;> split <;> simp [*]

theorem putBack (c : Cursor σ) : Adds [] c c.putBack :=
  accept [] rfl rfl rfl (tokens_putBack c) rfl rfl (by rw [ahead_putBack, held_putBack]; rfl)

theorem bump {t : Token} {rest : List Token} (h : c.ahead = t :: rest) :
    Adds ((c.held.reverse ++ [t]).map .leaf) c c.bump := by
  refine accept _ ?_ ?_ ?_ (tokens_bump c) (context_bump c) ?_ ?_ <;> simp [Cursor.bump, h]

/-- With nothing held, the accepted tokens are the next ones. -/
theorem bumpN (h : c.held = []) (n : Nat) : Adds ((c.ahead.take n).map .leaf) c (c.bumpN n) := by
  refine accept (c.ahead.take n) ?_ ?_ ?_ (tokens_bumpN c n) (context_bumpN c n) ?_ ?_ <;>
    simp [bumpN_eq h, h]

theorem splitAfter (c : Cursor σ) (count : Nat) : Adds [] c (c.splitAfter count) where
  view hv := by
    rw [List.append_nil]
    refine hv.same ?_ ?_ ?_ (sane_splitAfter hv.sane count) <;> unfold Cursor.splitAfter <;> split <;>
      first
      | rfl
      | split <;> rfl
  context := by
    unfold Cursor.splitAfter
    split
    · rfl
    · split <;> rfl
  diagnostics := by
    unfold Cursor.splitAfter
    split
    · rfl
    · split <;> rfl
  rest := by
    unfold Cursor.splitAfter
    split
    · rfl
    · next t rest ha =>
      split
      · simp [Cursor.rest, ha, Piece.textOf]
        rw [← List.append_assoc (t.text.take count), List.take_append_drop]
      · rfl

theorem flush_literal (c : Cursor σ) : Adds [] c (c.flush .literal) where
  view hv := by
    rw [List.append_nil]
    exact hv.flush_literal
  context := context_flush c _
  diagnostics := diagnostics_flush c _
  rest := by simp [Cursor.rest, Piece.textOf]

theorem flushRaw (c : Cursor σ) : Adds [] c c.flushRaw where
  view hv := by
    rw [List.append_nil]
    exact hv.flushRaw
  context := rfl
  diagnostics := rfl
  rest := rfl

theorem fail (c : Cursor σ) (fault : Fault) : Adds [] c (c.fail fault) :=
  accept [] rfl rfl rfl rfl rfl rfl rfl

/-- A stretch inside a node of its own. -/
theorem node (h : Adds ps c.start.2 d) (kind : Kind) (hk : kind ≠ .literal) :
    Adds [.part kind ps] c (d.complete c.start.1 kind) where
  view hv := by
    have hd := h.view hv.start
    rw [List.nil_append] at hd
    exact hd.complete kind hk
  context := by
    rw [context_complete, h.context]
    exact context_flush c _
  diagnostics := by
    rw [diagnostics_complete, h.diagnostics]
    exact diagnostics_flush c _
  rest := by
    have hr := h.rest
    have hstart : c.start.2.rest = c.rest := by simp [Cursor.rest]
    have hcomplete : (d.complete c.start.1 kind).rest = d.rest := by simp [Cursor.rest]
    rw [hcomplete, ← hstart, hr]
    simp [Piece.textOf, Piece.text]

/-- What was accepted on a stretch becomes a node of its own. -/
theorem flush_node (h : Adds d.pendingPieces c d) {kind : Kind} (hne : d.pending ≠ [])
    (hk : kind ≠ .literal) : Adds [.part kind d.pendingPieces] c (d.flush kind) where
  view hv := (h.view hv).flush_node hne hk
  context := (context_flush _ _).trans h.context
  diagnostics := (diagnostics_flush _ _).trans h.diagnostics
  rest := by
    rw [h.rest]
    simp [Cursor.rest, Piece.textOf, Piece.text]

/-- With nothing pending, the next tokens become a node of their own. -/
theorem flush_bumpN (hp : c.pending = []) (hh : c.held = []) {n : Nat} {kind : Kind}
    (hne : c.ahead.take n ≠ []) (hk : kind ≠ .literal) :
    Adds [.part kind ((c.ahead.take n).map .leaf)] c ((c.bumpN n).flush kind) := by
  have hpieces : (c.bumpN n).pendingPieces = (c.ahead.take n).map .leaf := by
    simp [pendingPieces, bumpN_eq hh, hp]
  have hadds := bumpN hh n
  rw [← hpieces] at hadds ⊢
  exact hadds.flush_node (by simpa [bumpN_eq hh, hp] using hne) hk

end Adds

end Cursor

end TemplateMarkup
