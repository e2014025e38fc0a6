import TemplateMarkup.Cursor

/-!
# What the operations of a cursor do to the tokens

Two views describe a cursor to the rest of the library: its tokens, in the order of the source, and
their text. Every operation keeps the tokens, apart from a split, which keeps their text.
-/

namespace TemplateMarkup

/-- What holds of a token holds of both parts of it. -/
def Token.Divisible (P : Token → Prop) : Prop :=
  ∀ ⦃kind : Kind⦄ ⦃a b : List Char⦄, a ≠ [] → b ≠ [] → P ⟨kind, a ++ b⟩ → P ⟨kind, a⟩ ∧ P ⟨kind, b⟩

/-- The run that passes a test, and what follows it. -/
theorem run_spec {α : Type} (test : α → Bool) (l : List α) :
    l.takeWhile test ++ l.dropWhile test = l ∧ (∀ a ∈ l.takeWhile test, test a = true) ∧
      ∀ a ∈ (l.dropWhile test).head?, test a = false := by
  refine ⟨List.takeWhile_append_dropWhile, List.all_eq_true.mp List.all_takeWhile, fun a ha => ?_⟩
  have hnot := List.head?_dropWhile_not test l
  rw [ha] at hnot
  exact hnot

namespace Cursor

variable {σ : Type}

/-- The text of the source, as the cursor holds it. -/
def text (c : Cursor σ) : List Char := Token.textOf c.tokens

theorem text_congr {c d : Cursor σ} (h : c.tokens = d.tokens) : c.text = d.text := by
  rw [text, text, h]

@[simp] theorem tokens_report (c : Cursor σ) (problem : Problem) (range : Range) :
    (c.report problem range).tokens = c.tokens := by
  unfold report
  split <;> rfl

@[simp] theorem tokens_bump (c : Cursor σ) : c.bump.tokens = c.tokens := by
  unfold bump
  split
  · rfl
  · next t rest h => simp [tokens, h]

@[simp] theorem tokens_bumpN (c : Cursor σ) (n : Nat) : (c.bumpN n).tokens = c.tokens := by
  induction n generalizing c with
  | zero => rfl
  | succ n ih => rw [bumpN, ih, tokens_bump]

@[simp] theorem tokens_advance (c : Cursor σ) : c.advance.tokens = c.tokens := by
  unfold advance
  split
  · rfl
  · next t rest h => simp [tokens, h]

@[simp] theorem tokens_acceptRead (c : Cursor σ) : c.acceptRead.tokens = c.tokens := by
  unfold acceptRead
  split <;> simp [tokens, fail]

@[simp] theorem tokens_rewind (c : Cursor σ) (index : Nat) :
    (c.rewind index).tokens = c.tokens := by
  have line := List.take_append_drop (index - c.accepted) (c.held.reverse ++ c.ahead)
  simp only [tokens, rewind, List.reverse_reverse, List.append_assoc] at line ⊢
  rw [line]

@[simp] theorem tokens_putBack (c : Cursor σ) : c.putBack.tokens = c.tokens := tokens_rewind c _

@[simp] theorem tokens_flushRaw (c : Cursor σ) : c.flushRaw.tokens = c.tokens := by
  simp [tokens, flushRaw]

@[simp] theorem tokens_flush (c : Cursor σ) (kind : Kind) : (c.flush kind).tokens = c.tokens := by
  unfold flush
  split
  · rfl
  · exact tokens_flushRaw { c with events := c.events.push (.start kind) }

@[simp] theorem tokens_start (c : Cursor σ) : c.start.2.tokens = c.tokens := tokens_flush c _

@[simp] theorem tokens_complete (c : Cursor σ) (m : Marker) (kind : Kind) :
    (c.complete m kind).tokens = c.tokens := by
  unfold complete
  dsimp only
  split <;> exact tokens_flush c _

@[simp] theorem tokens_abandon (c : Cursor σ) (m : Marker) : (c.abandon m).tokens = c.tokens := by
  unfold abandon
  split
  · split <;> rfl
  · rfl

@[simp] theorem tokens_missing (c : Cursor σ) (kind : Kind) :
    (c.missing kind).tokens = c.tokens := tokens_flush c _

/-- A split puts one more token into the line and keeps the text. -/
@[simp] theorem text_splitAfter (c : Cursor σ) (count : Nat) : (c.splitAfter count).text = c.text := by
  unfold splitAfter
  split
  · rfl
  · next t rest h =>
    split
    · simp only [text, tokens, h, Token.textOf_append, Token.textOf_cons, ← List.append_assoc]
      rw [List.append_assoc _ (t.text.take count), List.take_append_drop]
    · rfl

/-- What holds of all tokens and is divisible holds of them behind a split. -/
theorem forall_tokens_splitAfter {c : Cursor σ} {P : Token → Prop} (hP : Token.Divisible P)
    (h : ∀ t ∈ c.tokens, P t) (count : Nat) : ∀ t ∈ (c.splitAfter count).tokens, P t := by
  unfold splitAfter
  split
  · exact h
  · next t rest ha =>
    split
    · next hcount =>
      intro u hu
      simp only [tokens, ha, List.mem_append, List.mem_cons] at h hu
      have hhead : t.text.take count ≠ [] :=
        List.ne_nil_of_length_pos (by rw [List.length_take]; omega)
      have htail : t.text.drop count ≠ [] :=
        List.ne_nil_of_length_pos (by rw [List.length_drop]; omega)
      have hboth := hP hhead htail (by
        rw [List.take_append_drop]
        exact h t (.inr (.inl rfl)))
      rcases hu with hu | rfl | rfl | hu
      · exact h u (.inl hu)
      · exact hboth.1
      · exact hboth.2
      · exact h u (.inr (.inr hu))
    · exact h

/-! ## What a flush adds -/

/-- The events of a node of the kind over the tokens, the latest first; none without a token. -/
def flushEvents (kind : Kind) (pending : List Token) : List Event :=
  if pending.isEmpty then []
  else .start kind :: (pending.reverse.map fun t => .token t.kind 1) ++ [.finish]

theorem events_flush (c : Cursor σ) (kind : Kind) :
    (c.flush kind).events.toList = c.events.toList ++ flushEvents kind c.pending := by
  unfold flush flushEvents
  split
  · simp
  · simp [flushRaw]

theorem events_flushRaw (c : Cursor σ) : c.flushRaw.events.toList =
    c.events.toList ++ c.pending.reverse.map fun t => .token t.kind 1 := by
  simp [flushRaw]

@[simp] theorem flushed_flush (c : Cursor σ) (kind : Kind) :
    (c.flush kind).flushed = c.pending ++ c.flushed := by
  unfold flush
  split
  · next h => simp [List.isEmpty_iff.mp h]
  · rfl

@[simp] theorem pending_flush (c : Cursor σ) (kind : Kind) : (c.flush kind).pending = [] := by
  unfold flush
  split
  · next h => exact List.isEmpty_iff.mp h
  · rfl

theorem lastNode_flush (c : Cursor σ) (kind : Kind) :
    (c.flush kind).lastNode = if c.pending = [] then c.lastNode else some kind := by
  unfold flush
  by_cases hp : c.pending = [] <;> simp [hp]

@[simp] theorem held_flush (c : Cursor σ) (kind : Kind) : (c.flush kind).held = c.held := by
  unfold flush
  split <;> rfl

@[simp] theorem ahead_flush (c : Cursor σ) (kind : Kind) : (c.flush kind).ahead = c.ahead := by
  unfold flush
  split <;> rfl

theorem current_flush (c : Cursor σ) (kind : Kind) : (c.flush kind).current = c.current :=
  congrArg (Token.kindAt · 0) (ahead_flush c kind)

@[simp] theorem overrun_flush (c : Cursor σ) (kind : Kind) :
    (c.flush kind).overrun = c.overrun := by
  unfold flush
  split <;> rfl

@[simp] theorem diagnostics_flush (c : Cursor σ) (kind : Kind) :
    (c.flush kind).diagnostics = c.diagnostics := by
  unfold flush
  split <;> rfl

@[simp] theorem context_flush (c : Cursor σ) (kind : Kind) :
    (c.flush kind).context = c.context := by
  unfold flush
  split <;> rfl

@[simp] theorem fault_flush (c : Cursor σ) (kind : Kind) : (c.flush kind).fault = c.fault := by
  unfold flush
  split <;> rfl

/-! ## Operations written out -/

variable {c : Cursor σ}

theorem flush_of_pending (h : c.pending = []) (kind : Kind) : c.flush kind = c := by
  simp [flush, h]

theorem start_of_pending (h : c.pending = []) :
    c.start = (⟨c.events.size⟩, { c with events := c.events.push .placeholder }) := by
  simp [start, flush_of_pending h]

theorem complete_eq {m : Marker} (h : (c.flush .literal).events[m.index]? = some .placeholder)
    (kind : Kind) : c.complete m kind = { c.flush .literal with
      events := ((c.flush .literal).events.setIfInBounds m.index (.start kind)).push .finish
      lastNode := some kind } := by
  simp [complete, h]

/-! ## What lies ahead -/

theorem current_cons {t : Token} {rest : List Token} (h : c.ahead = t :: rest) :
    c.current = t.kind := by
  simp [current, nth, Token.kindAt, h]

theorem currentText_cons {t : Token} {rest : List Token} (h : c.ahead = t :: rest) :
    c.currentText = t.text := by
  simp [currentText, nthText, Token.textAt, h]

theorem bump_nil (h : c.ahead = []) : c.bump = c := by
  simp [bump, h]

theorem ahead_bump (c : Cursor σ) : c.bump.ahead = c.ahead.tail := by
  unfold bump
  split <;> simp [*]

theorem ahead_bumpN (c : Cursor σ) (n : Nat) : (c.bumpN n).ahead = c.ahead.drop n := by
  induction n generalizing c with
  | zero => rfl
  | succ n ih => rw [bumpN, ih, ahead_bump, List.drop_tail]

theorem bump_bumpN (c : Cursor σ) (n : Nat) : (c.bumpN n).bump = c.bump.bumpN n := by
  induction n generalizing c with
  | zero => rfl
  | succ n ih => exact ih c.bump

theorem ahead_bumpWhile (c : Cursor σ) (test : Token → Bool) :
    (c.bumpWhile test).ahead = c.ahead.dropWhile test := by
  rw [bumpWhile, ahead_bumpN, runLength, List.drop_zero]
  conv => lhs; rw [← List.takeWhile_append_dropWhile (p := test) (l := c.ahead)]
  rw [List.drop_append_of_le_length (by simp)]
  simp

/-- The token behind a run fails the test. -/
theorem test_of_ahead_bumpWhile {test : Token → Bool} {t : Token} {rest : List Token}
    (h : (c.bumpWhile test).ahead = t :: rest) : test t = false := by
  rw [ahead_bumpWhile] at h
  have hne : c.ahead.dropWhile test ≠ [] := by simp [h]
  have := List.head_dropWhile_not test hne
  simpa [h] using this

theorem bumpWhile_of_head {test : Token → Bool} (h : ∀ t ∈ c.ahead.head?, test t = false) :
    c.bumpWhile test = c := by
  have hlen : c.runLength test 0 = 0 := by
    cases ha : c.ahead with
    | nil => simp [runLength, ha]
    | cons t rest => simp [runLength, ha, h t (by simp [ha])]
  rw [bumpWhile, hlen, bumpN]

@[simp] theorem ahead_acceptRead (c : Cursor σ) : c.acceptRead.ahead = c.ahead := by
  unfold acceptRead
  split <;> rfl

theorem ahead_putBack (c : Cursor σ) : c.putBack.ahead = c.held.reverse ++ c.ahead := by
  simp [putBack, rewind]

theorem ahead_splitAfter_ne_nil (hne : c.ahead ≠ []) (count : Nat) :
    (c.splitAfter count).ahead ≠ [] := by
  unfold splitAfter
  split
  · exact hne
  · split
    · exact List.cons_ne_nil _ _
    · exact hne

@[simp] theorem ahead_start (c : Cursor σ) : c.start.2.ahead = c.ahead := ahead_flush c _

@[simp] theorem ahead_complete (c : Cursor σ) (m : Marker) (kind : Kind) :
    (c.complete m kind).ahead = c.ahead := by
  unfold complete
  dsimp only
  split <;> exact ahead_flush c _

@[simp] theorem ahead_report (c : Cursor σ) (problem : Problem) (range : Range) :
    (c.report problem range).ahead = c.ahead := by
  unfold report
  dsimp only
  split <;> rfl

/-! ## What is held -/

theorem held_bump {t : Token} {rest : List Token} (h : c.ahead = t :: rest) :
    c.bump.held = [] := by simp [bump, h]

theorem held_bump_of_ne_nil (h : c.ahead ≠ []) : c.bump.held = [] := by
  obtain ⟨t, rest, ha⟩ := List.exists_cons_of_ne_nil h
  exact held_bump ha

theorem held_bump_of_held (h : c.held = []) : c.bump.held = [] := by
  unfold bump
  split
  · exact h
  · rfl

theorem held_bumpN (h : c.held = []) (n : Nat) : (c.bumpN n).held = [] := by
  induction n generalizing c with
  | zero => exact h
  | succ n ih => exact ih (held_bump_of_held h)

@[simp] theorem held_acceptRead (c : Cursor σ) : c.acceptRead.held = [] := rfl

theorem held_putBack (c : Cursor σ) : c.putBack.held = [] := by
  simp [putBack, rewind]

@[simp] theorem held_start (c : Cursor σ) : c.start.2.held = c.held := held_flush c _

@[simp] theorem held_complete (c : Cursor σ) (m : Marker) (kind : Kind) :
    (c.complete m kind).held = c.held := by
  unfold complete
  dsimp only
  split <;> exact held_flush c _

@[simp] theorem pending_complete (c : Cursor σ) (m : Marker) (kind : Kind) :
    (c.complete m kind).pending = [] := by
  unfold complete
  dsimp only
  split <;> exact pending_flush c _

@[simp] theorem held_splitAfter (c : Cursor σ) (count : Nat) : (c.splitAfter count).held = c.held := by
  unfold splitAfter
  split
  · rfl
  · split <;> rfl

theorem held_eat (h : c.held = []) (kind : Kind) : (c.eat kind).2.held = [] := by
  unfold eat
  split
  · exact held_bump_of_held h
  · exact h

/-- With nothing held, the next tokens are accepted. -/
theorem bumpN_eq (h : c.held = []) (n : Nat) : c.bumpN n =
    { c with pending := (c.ahead.take n).reverse ++ c.pending, ahead := c.ahead.drop n } := by
  induction n generalizing c with
  | zero => rfl
  | succ n ih =>
    cases ha : c.ahead with
    | nil =>
      rw [bumpN, bump_nil ha, ih h, ha]
      simp
    | cons t rest =>
      rw [bumpN, ih (held_bump ha)]
      simp [bump, ha, h]

/-! ## The context -/

@[simp] theorem context_bump (c : Cursor σ) : c.bump.context = c.context := by
  unfold bump
  split <;> rfl

@[simp] theorem context_bumpN (c : Cursor σ) (n : Nat) : (c.bumpN n).context = c.context := by
  induction n generalizing c with
  | zero => rfl
  | succ n ih => rw [bumpN, ih, context_bump]

@[simp] theorem context_advance (c : Cursor σ) : c.advance.context = c.context := by
  unfold advance
  split <;> rfl

@[simp] theorem context_acceptRead (c : Cursor σ) : c.acceptRead.context = c.context := by
  unfold acceptRead
  split <;> rfl

@[simp] theorem context_complete (c : Cursor σ) (m : Marker) (kind : Kind) :
    (c.complete m kind).context = c.context := by
  unfold complete
  dsimp only
  split <;> exact context_flush c _

/-! ## Diagnostics -/

@[simp] theorem diagnostics_bump (c : Cursor σ) : c.bump.diagnostics = c.diagnostics := by
  unfold bump
  split <;> rfl

@[simp] theorem diagnostics_advance (c : Cursor σ) : c.advance.diagnostics = c.diagnostics := by
  unfold advance
  split <;> rfl

@[simp] theorem diagnostics_acceptRead (c : Cursor σ) :
    c.acceptRead.diagnostics = c.diagnostics := by
  unfold acceptRead
  split <;> rfl

@[simp] theorem diagnostics_splitAfter (c : Cursor σ) (count : Nat) :
    (c.splitAfter count).diagnostics = c.diagnostics := by
  unfold splitAfter
  split
  · rfl
  · split <;> rfl

@[simp] theorem diagnostics_complete (c : Cursor σ) (m : Marker) (kind : Kind) :
    (c.complete m kind).diagnostics = c.diagnostics := by
  unfold complete
  dsimp only
  split <;> exact diagnostics_flush c _

@[simp] theorem diagnostics_abandon (c : Cursor σ) (m : Marker) :
    (c.abandon m).diagnostics = c.diagnostics := by
  unfold abandon
  split
  · split <;> rfl
  · rfl

/-! ## What a host keeps

Only an embedded-code parser changes its own state. -/

@[simp] theorem host_fail (c : Cursor σ) (fault : Fault) : (c.fail fault).host = c.host := rfl

@[simp] theorem host_report (c : Cursor σ) (problem : Problem) (range : Range) :
    (c.report problem range).host = c.host := by
  unfold report
  split <;> rfl

@[simp] theorem host_bump (c : Cursor σ) : c.bump.host = c.host := by
  unfold bump
  split <;> rfl

@[simp] theorem host_bumpN (c : Cursor σ) (n : Nat) : (c.bumpN n).host = c.host := by
  induction n generalizing c with
  | zero => rfl
  | succ n ih => rw [bumpN, ih, host_bump]

@[simp] theorem host_bumpWhile (c : Cursor σ) (test : Token → Bool) :
    (c.bumpWhile test).host = c.host := host_bumpN c _

@[simp] theorem host_eat (c : Cursor σ) (kind : Kind) : (c.eat kind).2.host = c.host := by
  unfold eat
  split
  · exact host_bump c
  · rfl

@[simp] theorem host_advance (c : Cursor σ) : c.advance.host = c.host := by
  unfold advance
  split <;> rfl

@[simp] theorem host_acceptRead (c : Cursor σ) : c.acceptRead.host = c.host := by
  unfold acceptRead
  split <;> rfl

@[simp] theorem host_rewind (c : Cursor σ) (index : Nat) : (c.rewind index).host = c.host := rfl

@[simp] theorem host_putBack (c : Cursor σ) : c.putBack.host = c.host := rfl

@[simp] theorem host_splitAfter (c : Cursor σ) (count : Nat) :
    (c.splitAfter count).host = c.host := by
  unfold splitAfter
  split
  · rfl
  · split <;> rfl

@[simp] theorem host_flushRaw (c : Cursor σ) : c.flushRaw.host = c.host := rfl

@[simp] theorem host_flush (c : Cursor σ) (kind : Kind) : (c.flush kind).host = c.host := by
  unfold flush
  split <;> rfl

@[simp] theorem host_start (c : Cursor σ) : c.start.2.host = c.host := host_flush c _

@[simp] theorem host_complete (c : Cursor σ) (m : Marker) (kind : Kind) :
    (c.complete m kind).host = c.host := by
  unfold complete
  dsimp only
  split <;> exact host_flush c _

@[simp] theorem host_abandon (c : Cursor σ) (m : Marker) : (c.abandon m).host = c.host := by
  unfold abandon
  split
  · split <;> rfl
  · rfl

@[simp] theorem host_missing (c : Cursor σ) (kind : Kind) : (c.missing kind).host = c.host :=
  host_flush c _

end Cursor

end TemplateMarkup
