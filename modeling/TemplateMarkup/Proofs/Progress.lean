import TemplateMarkup.Proofs.Path

/-! # How far a path gets

What is not accepted yet never grows along a path, and accepting a token makes
it smaller, since no token is empty. `Reaches` is a path from a sound cursor
that accepts at least `gain` characters; loops are measured by it. -/

namespace TemplateMarkup.Cursor

open Event

variable {σ : Type} {strict : Prop} {base : List Event} {ms ns : List Marker} {c d : Cursor σ}

theorem length_textOf_append (a b : List Token) :
    (Token.textOf (a ++ b)).length = (Token.textOf a).length + (Token.textOf b).length := by
  rw [Token.textOf_append, List.length_append]

theorem length_textOf_reverse (ts : List Token) :
    (Token.textOf ts.reverse).length = (Token.textOf ts).length := by
  induction ts with
  | nil => rfl
  | cons t ts ih =>
    rw [List.reverse_cons, length_textOf_append, ih]
    simp only [Token.textOf_cons, Token.textOf_nil, List.length_append, List.length_nil]
    omega

theorem unclaimed_bump {t : Token} {rest : List Token} (h : c.ahead = t :: rest) :
    c.bump.unclaimed + (Token.textOf c.held).length + t.text.length = c.unclaimed := by
  simp only [unclaimed, bump, h, Token.textOf_nil, Token.textOf_cons, List.length_nil,
    List.length_append]
  omega

theorem unclaimed_bump_le (c : Cursor σ) : c.bump.unclaimed ≤ c.unclaimed := by
  cases h : c.ahead with
  | nil => simp [bump, h]
  | cons t rest =>
    have := unclaimed_bump h
    omega

theorem unclaimed_advance (c : Cursor σ) : c.advance.unclaimed = c.unclaimed := by
  unfold advance
  split
  · rfl
  · next t rest h =>
    simp only [unclaimed, h, Token.textOf_cons, List.length_append]
    omega

theorem unclaimed_acceptRead (c : Cursor σ) :
    c.acceptRead.unclaimed = (Token.textOf c.ahead).length := by
  unfold acceptRead
  split <;> simp [unclaimed, fail]

theorem unclaimed_rewind (c : Cursor σ) (index : Nat) :
    (c.rewind index).unclaimed = c.unclaimed := by
  have h := congrArg (fun ts => (Token.textOf ts).length)
    (List.take_append_drop (index - c.accepted) (c.held.reverse ++ c.ahead))
  simp only [length_textOf_append, length_textOf_reverse] at h
  simp only [unclaimed, rewind, length_textOf_reverse]
  exact h

theorem unclaimed_splitAfter (c : Cursor σ) (count : Nat) :
    (c.splitAfter count).unclaimed = c.unclaimed := by
  unfold splitAfter
  split
  · rfl
  · next t rest h =>
    split
    · have ht := congrArg List.length (List.take_append_drop count t.text)
      simp only [List.length_append] at ht
      simp only [unclaimed, h, Token.textOf_cons, List.length_append]
      omega
    · rfl

@[simp] theorem unclaimed_flush (c : Cursor σ) (kind : Kind) :
    (c.flush kind).unclaimed = c.unclaimed := by simp [unclaimed]

@[simp] theorem unclaimed_start (c : Cursor σ) : c.start.2.unclaimed = c.unclaimed :=
  unclaimed_flush c _

@[simp] theorem unclaimed_complete (c : Cursor σ) (m : Marker) (kind : Kind) :
    (c.complete m kind).unclaimed = c.unclaimed := by
  unfold complete
  dsimp only
  split <;> exact unclaimed_flush c _

theorem Step.unclaimed_le (s : Step strict c ms d ns) : d.unclaimed ≤ c.unclaimed := by
  cases s with
  | bump => exact unclaimed_bump_le c
  | advance => exact Nat.le_of_eq (unclaimed_advance c)
  | acceptRead =>
    rw [unclaimed_acceptRead, unclaimed]
    omega
  | rewind index => exact Nat.le_of_eq (unclaimed_rewind c index)
  | splitAfter count => exact Nat.le_of_eq (unclaimed_splitAfter c count)
  | flush kind => exact Nat.le_of_eq (unclaimed_flush c kind)
  | missing kind => exact Nat.le_of_eq (unclaimed_flush c .literal)
  | start => exact Nat.le_of_eq (unclaimed_start c)
  | complete kind => exact Nat.le_of_eq (unclaimed_complete c _ kind)
  | flushRaw | context | host | reorder => exact Nat.le_refl _
  | abandon =>
    unfold Cursor.abandon
    split
    · split <;> exact Nat.le_refl _
    · exact Nat.le_refl _
  | report =>
    unfold Cursor.report
    split <;> exact Nat.le_refl _

theorem Path.unclaimed_le (p : Path strict c ms d ns) : d.unclaimed ≤ c.unclaimed := by
  induction p with
  | refl => exact Nat.le_refl _
  | tail _ s ih => exact Nat.le_trans s.unclaimed_le ih

/-- A path to a sound cursor, on which at least `gain` characters are accepted. -/
structure Reaches (strict : Prop) (base : List Event) (c₀ : Cursor σ) (ms₀ : List Marker) (gain : Nat)
    (c : Cursor σ) (ms : List Marker) : Prop where
  path : Path strict c₀ ms₀ c ms
  sound : Sound strict base ms c
  gained : c.unclaimed + gain ≤ c₀.unclaimed

namespace Reaches

variable {c₀ : Cursor σ} {ms₀ : List Marker} {gain : Nat}

theorem refl (h : Sound strict base ms c) : Reaches strict base c ms 0 c ms := ⟨.refl, h, Nat.le_refl _⟩

theorem step (h : Reaches strict base c₀ ms₀ gain c ms) (s : Step strict c ms d ns) :
    Reaches strict base c₀ ms₀ gain d ns :=
  ⟨h.path.tail s, s.sound h.sound,
    Nat.le_trans (Nat.add_le_add_right s.unclaimed_le gain) h.gained⟩

theorem follow (h : Reaches strict base c₀ ms₀ gain c ms) (p : Path strict c ms d ns) :
    Reaches strict base c₀ ms₀ gain d ns :=
  ⟨h.path.trans p, p.sound h.sound, by have := h.gained; have := p.unclaimed_le; omega⟩

theorem trans {e : Cursor σ} {ps : List Marker} {more : Nat}
    (h : Reaches strict base c₀ ms₀ gain c ms) (h' : Reaches strict base c ms more e ps) :
    Reaches strict base c₀ ms₀ (gain + more) e ps :=
  ⟨h.path.trans h'.path, h'.sound, by have := h.gained; have := h'.gained; omega⟩

theorem weaken {less : Nat} (h : Reaches strict base c₀ ms₀ gain c ms) (hl : less ≤ gain) :
    Reaches strict base c₀ ms₀ less c ms :=
  ⟨h.path, h.sound, by have := h.gained; omega⟩

theorem bump (h : Reaches strict base c₀ ms₀ gain c ms) :
    Reaches strict base c₀ ms₀ gain c.bump ms :=
  h.step .bump

/-- The token that comes next is not empty, so accepting it is a gain. -/
theorem bump_gain (h : Reaches strict base c₀ ms₀ gain c ms) (hne : c.ahead ≠ []) :
    Reaches strict base c₀ ms₀ (gain + 1) c.bump ms := by
  have hb := h.bump
  refine ⟨hb.path, hb.sound, ?_⟩
  obtain ⟨t, rest, ha⟩ := List.exists_cons_of_ne_nil hne
  have ht : 0 < t.text.length :=
    List.length_pos_iff.mpr (h.sound.nonempty t (by simp [tokens, ha]))
  have := unclaimed_bump ha
  have := h.gained
  omega

theorem bumpN (n : Nat) (h : Reaches strict base c₀ ms₀ gain c ms) :
    Reaches strict base c₀ ms₀ gain (c.bumpN n) ms := by
  induction n generalizing c with
  | zero => exact h
  | succ n ih => exact ih h.bump

theorem bumpN_gain (n : Nat) (h : Reaches strict base c₀ ms₀ gain c ms) (hne : c.ahead ≠ []) :
    Reaches strict base c₀ ms₀ (gain + 1) (c.bumpN (n + 1)) ms :=
  (h.bump_gain hne).bumpN n

theorem bumpWhile (test : Token → Bool) (h : Reaches strict base c₀ ms₀ gain c ms) :
    Reaches strict base c₀ ms₀ gain (c.bumpWhile test) ms := h.bumpN _

theorem eat (kind : Kind) (h : Reaches strict base c₀ ms₀ gain c ms) :
    Reaches strict base c₀ ms₀ gain (c.eat kind).2 ms := by
  unfold Cursor.eat
  split
  · exact h.bump
  · exact h

theorem advance (h : Reaches strict base c₀ ms₀ gain c ms) :
    Reaches strict base c₀ ms₀ gain c.advance ms :=
  h.step .advance

theorem acceptRead (h : Reaches strict base c₀ ms₀ gain c ms) :
    Reaches strict base c₀ ms₀ gain c.acceptRead ms := h.step .acceptRead

theorem putBack (h : Reaches strict base c₀ ms₀ gain c ms) :
    Reaches strict base c₀ ms₀ gain c.putBack ms :=
  h.step (.rewind _ (by rw [Sound.length_tokens]; omega))

theorem splitAfter (count : Nat) (h : Reaches strict base c₀ ms₀ gain c ms) :
    Reaches strict base c₀ ms₀ gain (c.splitAfter count) ms := h.step (.splitAfter count)

theorem flush (kind : Kind) (h : Reaches strict base c₀ ms₀ gain c ms) :
    Reaches strict base c₀ ms₀ gain (c.flush kind) ms := h.step (.flush kind)

theorem flushRaw (h : Reaches strict base c₀ ms₀ gain c ms) :
    Reaches strict base c₀ ms₀ gain c.flushRaw ms :=
  h.step .flushRaw

theorem missing (kind : Kind) (h : Reaches strict base c₀ ms₀ gain c ms) :
    Reaches strict base c₀ ms₀ gain (c.missing kind) ms := h.step (.missing kind)

theorem start (h : Reaches strict base c₀ ms₀ gain c ms) :
    Reaches strict base c₀ ms₀ gain c.start.2 (c.start.1 :: ms) := h.step .start

theorem complete {m : Marker} (kind : Kind) (h : Reaches strict base c₀ ms₀ gain c (m :: ms)) :
    Reaches strict base c₀ ms₀ gain (c.complete m kind) ms := h.step (.complete kind)

/-- Along a path the source is the same, so the range may be given at its beginning. -/
theorem report (problem : Problem) {range : Range} (hr : range.start ≤ range.stop)
    (hw : strict → range.stop ≤ Text.width c₀.text) (h : Reaches strict base c₀ ms₀ gain c ms) :
    Reaches strict base c₀ ms₀ gain (c.report problem range) ms :=
  h.step (.report problem range hr fun hstrict => h.path.text_eq ▸ hw hstrict)

theorem context (context : Context) (h : Reaches strict base c₀ ms₀ gain c ms) :
    Reaches strict base c₀ ms₀ gain { c with context := context } ms := h.step (.context context)

end Reaches

end TemplateMarkup.Cursor
