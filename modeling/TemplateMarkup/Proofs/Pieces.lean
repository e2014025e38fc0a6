import TemplateMarkup.Tree.Builder

/-! # What stands in a node

Where literal text is cut into nodes depends on when the parser happened to
flush, and says nothing about the markup. `Tree.pieces` reads a tree with its
literal nodes dissolved. `Tree.events` writes a tree out as the events that
build it, so that a parse can be followed as a list of growing trees. -/

namespace TemplateMarkup

/-- A leaf, or a node other than literal text with what stands in it. -/
inductive Piece where
  | leaf (token : Token)
  | part (kind : Kind) (pieces : List Piece)
  deriving Inhabited

namespace Piece

mutual

def text : Piece → List Char
  | leaf t => t.text
  | part _ ps => textOf ps

def textOf : List Piece → List Char
  | [] => []
  | p :: ps => p.text ++ textOf ps

end

@[simp] theorem textOf_append (a b : List Piece) : textOf (a ++ b) = textOf a ++ textOf b := by
  induction a with
  | nil => rfl
  | cons p a ih => simp [textOf, ih]

@[simp] theorem textOf_map_leaf (ts : List Token) : textOf (ts.map leaf) = Token.textOf ts := by
  induction ts with
  | nil => rfl
  | cons t ts ih => simp [textOf, text, ih]

end Piece

namespace Tree

mutual

/-- What a tree contributes to the node around it. -/
def pieces : Tree → List Piece
  | token kind text => [.leaf ⟨kind, text⟩]
  | node kind children =>
    if kind = .literal then piecesOf children else [.part kind (piecesOf children)]

def piecesOf : List Tree → List Piece
  | [] => []
  | t :: ts => t.pieces ++ piecesOf ts

end

@[simp] theorem piecesOf_append (a b : List Tree) : piecesOf (a ++ b) = piecesOf a ++ piecesOf b := by
  induction a with
  | nil => rfl
  | cons t a ih => simp [piecesOf, ih]

mutual

theorem textOf_pieces : (t : Tree) → Piece.textOf t.pieces = t.text
  | token kind text => by simp [pieces, Piece.textOf, Piece.text, Tree.text]
  | node kind children => by
    have h := textOf_piecesOf children
    simp only [pieces]
    split
    · exact h
    · simpa [Piece.textOf, Piece.text, Tree.text] using h

theorem textOf_piecesOf : (ts : List Tree) → Piece.textOf (piecesOf ts) = textOf ts
  | [] => rfl
  | t :: ts => by simp [piecesOf, textOf, textOf_pieces t, textOf_piecesOf ts]

end

/-- A token as a leaf. -/
def ofToken (t : Token) : Tree := .token t.kind t.text

@[simp] theorem piecesOf_map_ofToken (ts : List Token) :
    piecesOf (ts.map ofToken) = ts.map .leaf := by
  induction ts with
  | nil => rfl
  | cons t ts ih => simp [piecesOf, ih, ofToken, pieces]

/-! ## The events of a tree -/

mutual

/-- The events that build a tree. A leaf without text takes no token. -/
def events : Tree → List Event
  | token kind text => [.token kind (if text = [] then 0 else 1)]
  | node kind children => .start kind :: eventsOf children ++ [.finish]

def eventsOf : List Tree → List Event
  | [] => []
  | t :: ts => t.events ++ eventsOf ts

end

mutual

/-- The texts of the leaves that have one. -/
def leafTexts : Tree → List (List Char)
  | token _ text => if text = [] then [] else [text]
  | node _ children => leafTextsOf children

def leafTextsOf : List Tree → List (List Char)
  | [] => []
  | t :: ts => t.leafTexts ++ leafTextsOf ts

end

@[simp] theorem eventsOf_append (a b : List Tree) : eventsOf (a ++ b) = eventsOf a ++ eventsOf b := by
  induction a with
  | nil => rfl
  | cons t a ih => simp [eventsOf, ih]

@[simp] theorem leafTextsOf_append (a b : List Tree) :
    leafTextsOf (a ++ b) = leafTextsOf a ++ leafTextsOf b := by
  induction a with
  | nil => rfl
  | cons t a ih => simp [leafTextsOf, ih]

theorem eventsOf_map_ofToken {ts : List Token} (h : ∀ t ∈ ts, t.text ≠ []) :
    eventsOf (ts.map ofToken) = ts.map fun t => .token t.kind 1 := by
  induction ts with
  | nil => rfl
  | cons t ts ih =>
    have ht := h t (List.mem_cons_self ..)
    have hts := ih fun u hu => h u (List.mem_cons_of_mem t hu)
    simp [eventsOf, events, ofToken, ht, hts]

theorem leafTextsOf_map_ofToken {ts : List Token} (h : ∀ t ∈ ts, t.text ≠ []) :
    leafTextsOf (ts.map ofToken) = ts.map Token.text := by
  induction ts with
  | nil => rfl
  | cons t ts ih =>
    have ht := h t (List.mem_cons_self ..)
    have hts := ih fun u hu => h u (List.mem_cons_of_mem t hu)
    simp [leafTextsOf, leafTexts, ofToken, ht, hts]

namespace Builder

mutual

/-- The events of a tree add that tree to the open node. -/
theorem foldlM_events : (t : Tree) → {b : Builder} → {used rest : List Token} → {kind : Kind} →
    {children : List Tree} → {outer : List (Kind × List Tree)} → b.unread = used ++ rest →
    used.map Token.text = t.leafTexts → b.frames = (kind, children) :: outer →
    t.events.foldlM step b =
      some { b with unread := rest, frames := (kind, t :: children) :: outer }
  | token k text, b, used, rest, kind, children, outer, hu, ht, hf => by
    by_cases htext : text = []
    · have hused : used = [] := by simpa [leafTexts, htext] using ht
      subst hused
      have hrest : b.unread = rest := hu
      simp [events, htext, step, add, hf, hrest]
    · have hused : used.map Token.text = [text] := by simpa [leafTexts, htext] using ht
      obtain ⟨u, rfl, rfl⟩ := List.map_eq_singleton_iff.mp hused
      have htake : b.unread.take 1 = [u] := by rw [hu]; rfl
      have hdrop : b.unread.drop 1 = rest := by rw [hu]; rfl
      simp [events, htext, step, add, hf, htake, hdrop]
  | node k ts, b, used, rest, kind, children, outer, hu, ht, hf => by
    have hts := foldlM_eventsOf ts (b := { b with frames := (k, []) :: b.frames }) hu ht rfl
    simp only [events, List.foldlM_append, List.foldlM_cons, List.foldlM_nil, step,
      Option.bind_eq_bind, Option.bind_some, hts]
    simp [add, hf]

theorem foldlM_eventsOf : (ts : List Tree) → {b : Builder} → {used rest : List Token} →
    {kind : Kind} → {children : List Tree} → {outer : List (Kind × List Tree)} →
    b.unread = used ++ rest → used.map Token.text = leafTextsOf ts →
    b.frames = (kind, children) :: outer → (eventsOf ts).foldlM step b =
      some { b with unread := rest, frames := (kind, ts.reverse ++ children) :: outer }
  | [], b, used, rest, kind, children, outer, hu, ht, hf => by
    have hused : used = [] := by simpa [leafTextsOf] using ht
    subst hused
    have hrest : b.unread = rest := hu
    rw [← hrest, List.reverse_nil, List.nil_append, ← hf]
    rfl
  | t :: ts, b, used, rest, kind, children, outer, hu, ht, hf => by
    obtain ⟨front, back, rfl, hfront, hback⟩ := List.map_eq_append_iff.mp ht
    have hunread : b.unread = front ++ (back ++ rest) := by rw [hu, List.append_assoc]
    have hrun := foldlM_events t hunread hfront hf
    have hruns := foldlM_eventsOf ts
      (b := { b with unread := back ++ rest, frames := (kind, t :: children) :: outer }) rfl hback
      rfl
    rw [eventsOf, List.foldlM_append, hrun]
    simpa using hruns

end

end Builder

/-- A node's own events build it, if its leaves have the texts of the tokens. -/
theorem ofEvents?_events (kind : Kind) {children : List Tree} {tokens : List Token}
    (h : tokens.map Token.text = leafTextsOf children) :
    ofEvents? tokens (Tree.node kind children).events = some (.node kind children) := by
  have hrun := Builder.foldlM_eventsOf children (b := ⟨tokens, [(kind, [])], []⟩)
    (List.append_nil tokens).symm h rfl
  rw [ofEvents?, events, List.foldlM_append, List.foldlM_cons]
  simp only [Builder.step, Option.bind_eq_bind, Option.bind_some, hrun]
  simp [Builder.step, Builder.add, Builder.tree?, Builder.topLevel]

end Tree

/-! ## Spans of tags -/

/-- Where a tag block stands in the source, and the tag blocks in it. -/
inductive TagSpan where
  | span (start stop : Nat) (inner : List TagSpan)
  deriving Repr

namespace Tree

mutual

/-- The outermost tag blocks of a tree that begins at the offset. -/
def tagSpans (start : Nat) : Tree → List TagSpan
  | token .. => []
  | node kind children =>
    if kind = .tagBlock then [.span start (start + widthOf children) (tagSpansOf start children)]
    else tagSpansOf start children

def tagSpansOf (start : Nat) : List Tree → List TagSpan
  | [] => []
  | t :: ts => t.tagSpans start ++ tagSpansOf (start + t.width) ts

end

end Tree

namespace Piece

mutual

def tagSpans (start : Nat) : Piece → List TagSpan
  | leaf _ => []
  | part kind ps =>
    if kind = .tagBlock then
      [.span start (start + Text.width (textOf ps)) (tagSpansOf start ps)]
    else tagSpansOf start ps

def tagSpansOf (start : Nat) : List Piece → List TagSpan
  | [] => []
  | p :: ps => p.tagSpans start ++ tagSpansOf (start + Text.width p.text) ps

end

theorem tagSpansOf_append (start : Nat) (a b : List Piece) : tagSpansOf start (a ++ b) =
    tagSpansOf start a ++ tagSpansOf (start + Text.width (textOf a)) b := by
  induction a generalizing start with
  | nil => simp [tagSpansOf, textOf, Text.width]
  | cons p a ih => simp [tagSpansOf, textOf, ih, Nat.add_assoc]

@[simp] theorem tagSpansOf_map_leaf (start : Nat) (ts : List Token) :
    tagSpansOf start (ts.map leaf) = [] := by
  induction ts generalizing start with
  | nil => rfl
  | cons t ts ih => simp [tagSpansOf, tagSpans, ih]

end Piece

namespace Tree

mutual

/-- The tag blocks of a tree are those of its pieces. -/
theorem tagSpansOf_pieces : (t : Tree) → (start : Nat) →
    Piece.tagSpansOf start t.pieces = t.tagSpans start
  | token kind text, start => rfl
  | node kind children, start => by
    have h := tagSpansOf_piecesOf children start
    simp only [pieces, tagSpans]
    split
    · next hk =>
      rw [if_neg (by rw [hk]; decide)]
      exact h
    · split <;> simp [*, Piece.tagSpansOf, Piece.tagSpans, textOf_piecesOf, widthOf_eq]

theorem tagSpansOf_piecesOf : (ts : List Tree) → (start : Nat) →
    Piece.tagSpansOf start (piecesOf ts) = tagSpansOf start ts
  | [], start => rfl
  | t :: ts, start => by
    rw [piecesOf, Piece.tagSpansOf_append, textOf_pieces, tagSpansOf_pieces t,
      tagSpansOf_piecesOf ts, tagSpansOf, width_eq]

end

end Tree

end TemplateMarkup
