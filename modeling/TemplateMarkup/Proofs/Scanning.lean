import TemplateMarkup.Proofs.Lawful

/-! # Scans end and follow paths

Each step of a scan makes `scanMeasure` smaller, whatever the code parser does
in its calls. A character counts twice until it is read, since a call that moves
over it may leave a line ending to be skipped, which takes a step of its own;
blanks that begin a line count on until it is clear that they are not put back.
The budget of a scan is more than all that, so a scan never stalls, and each of
its steps is a path. -/

namespace TemplateMarkup.Cursor

variable {σ : Type} {code : EmbeddedCode σ} {ok : σ → Prop} {strict : Prop} {base : List Event}
  {c₀ c : Cursor σ} {ms₀ ms : List Marker} {gain : Nat} {place : LinePlace}

/-! ## What is left of a scan -/

/-- One if a line ending is to be left unrendered. -/
def lineEndingDue (c : Cursor σ) : Nat := if c.context.ephemeralLineEnding then 1 else 0

/-- How many steps a scan can still take. -/
def scanMeasure (place : LinePlace) (c : Cursor σ) : Nat :=
  2 * c.unread + c.lineEndingDue +
    match place with
    | .inside => 0
    | .start => 1
    | .indent => 2 * (Token.textOf c.held).length

theorem scanMeasure_inside (c : Cursor σ) :
    scanMeasure .inside c = 2 * c.unread + c.lineEndingDue := rfl

theorem scanMeasure_start (c : Cursor σ) :
    scanMeasure .start c = 2 * c.unread + c.lineEndingDue + 1 := rfl

theorem scanMeasure_indent (c : Cursor σ) : scanMeasure .indent c =
    2 * c.unread + c.lineEndingDue + 2 * (Token.textOf c.held).length := rfl

theorem lineEndingDue_le (c : Cursor σ) : c.lineEndingDue ≤ 1 := by
  unfold lineEndingDue
  split <;> omega

theorem lineEndingDue_of_not (h : c.context.ephemeralLineEnding = false) :
    c.lineEndingDue = 0 := by simp [lineEndingDue, h]

theorem lineEndingDue_congr {d : Cursor σ} (h : d.context = c.context) :
    d.lineEndingDue = c.lineEndingDue := by rw [lineEndingDue, lineEndingDue, h]

theorem le_scanMeasure (place : LinePlace) (c : Cursor σ) :
    2 * c.unread + c.lineEndingDue ≤ scanMeasure place c := Nat.le_add_right _ _

theorem unclaimed_of_held (h : c.held = []) : c.unclaimed = c.unread := by
  simp [unclaimed, unread, h]

theorem scanMeasure_lt_budget (code : EmbeddedCode σ) (c : Cursor σ) :
    scanMeasure .inside c < code.budget c := by
  have hread : c.unread ≤ c.unclaimed := Nat.le_add_left _ _
  have hdue := lineEndingDue_le c
  have hbudget : 2 * c.unclaimed + 2 ≤ code.budget c := Nat.le_mul_of_pos_left _ (Nat.succ_pos _)
  rw [scanMeasure_inside]
  omega

/-! ## The operations of a scan -/

@[simp] theorem unread_flush (c : Cursor σ) (kind : Kind) : (c.flush kind).unread = c.unread := by
  simp [unread]

@[simp] theorem unread_acceptRead (c : Cursor σ) : c.acceptRead.unread = c.unread := by simp [unread]

theorem unread_putBack (c : Cursor σ) :
    c.putBack.unread = (Token.textOf c.held).length + c.unread := by
  rw [unread, ahead_putBack, length_textOf_append, length_textOf_reverse, unread]

theorem unread_cons {t : Token} {rest : List Token} (h : c.ahead = t :: rest) :
    c.unread = t.text.length + (Token.textOf rest).length := by
  simp [unread, h]

theorem unread_bump_le (c : Cursor σ) : c.bump.unread ≤ c.unread := by
  cases ha : c.ahead with
  | nil => exact Nat.le_of_eq (congrArg unread (bump_nil ha))
  | cons t rest =>
    rw [unread_cons ha, unread, ahead_bump, ha, List.tail_cons]
    omega

theorem unread_bumpN_le (c : Cursor σ) (n : Nat) : (c.bumpN n).unread ≤ c.unread := by
  induction n generalizing c with
  | zero => exact Nat.le_refl _
  | succ n ih => exact Nat.le_trans (ih _) (unread_bump_le c)

theorem Sound.unread_bump_lt (h : Sound strict base ms c) (hne : c.ahead ≠ []) :
    c.bump.unread < c.unread := by
  obtain ⟨t, rest, ha⟩ := List.exists_cons_of_ne_nil hne
  have hpos := currentText_cons ha ▸ h.currentText_pos hne
  rw [unread_cons ha, unread, ahead_bump, ha, List.tail_cons]
  omega

theorem Sound.unclaimed_bump_lt (h : Sound strict base ms c) (hne : c.ahead ≠ []) :
    c.bump.unclaimed < c.unclaimed := by
  have := ((Reaches.refl h).bump_gain hne).gained
  omega

theorem ahead_ne_nil_of_nth {n : Nat} {kind : Kind} (h : c.nth n = kind)
    (hk : kind ≠ .endOfInput) : c.ahead ≠ [] := by
  intro ha
  apply hk
  rw [← h]
  simp [nth, Token.kindAt, ha]

theorem ahead_ne_nil_of_at {kind : Kind} (h : c.at? kind = true) (hk : kind ≠ .endOfInput) :
    c.ahead ≠ [] :=
  ahead_ne_nil_of_nth (n := 0) (by simpa [at?, current] using h) hk

theorem ahead_ne_nil_of_not_atEnd (h : ¬ c.atEnd = true) : c.ahead ≠ [] := by
  simpa [atEnd] using h

namespace Reaches

theorem ephemeralLineEnd (h : Reaches strict base c₀ ms₀ gain c ms) :
    Reaches strict base c₀ ms₀ gain c.ephemeralLineEnd.2 ms := by
  unfold Cursor.ephemeralLineEnd
  generalize (if c.at? .whitespace then 1 else 0) = blanks
  dsimp only
  split
  · exact (h.bumpN _).flush .ephemeral
  · exact h

theorem endLine (h : Reaches strict base c₀ ms₀ gain c ms) :
    Reaches strict base c₀ ms₀ gain c.endLine.2 ms := h.ephemeralLineEnd

end Reaches

theorem scanMeasure_endLine (h : Sound strict base ms c) :
    scanMeasure c.endLine.1 c.endLine.2 ≤ 2 * c.unread + c.lineEndingDue := by
  unfold endLine ephemeralLineEnd
  generalize (if c.at? .whitespace then 1 else 0) = blanks
  dsimp only
  by_cases hn : c.nth blanks = .newline
  · have hlt := h.unread_bump_lt (ahead_ne_nil_of_nth hn (by decide))
    have hle : ((c.bumpN (blanks + 1)).flush .ephemeral).unread ≤ c.bump.unread := by
      rw [unread_flush]
      exact unread_bumpN_le c.bump blanks
    have hdue : ((c.bumpN (blanks + 1)).flush .ephemeral).lineEndingDue = c.lineEndingDue :=
      lineEndingDue_congr ((context_flush _ _).trans (context_bumpN c _))
    simp only [if_pos hn, if_true, scanMeasure_start, hdue]
    omega
  · simp [if_neg hn, scanMeasure_inside]

/-! ## One step -/

/-- The cursor that is handed over as code: blanks that begin the line go with it. -/
def beforeCode (place : LinePlace) (c : Cursor σ) : Cursor σ :=
  (if place = .indent ∧ !c.context.options.designTime then c.putBack else c.acceptRead).flush
    .literal

/-- The cursor that is handed over as an inline comment. -/
def beforeComment (place : LinePlace) (c : Cursor σ) : Cursor σ :=
  (c.flush .literal).acceptRead.flush (if place = .indent then .ephemeral else .literal)

/-- What one step of a scan can do. -/
inductive ScanOutcome (code : EmbeddedCode σ) (place : LinePlace) (c : Cursor σ) :
    LinePlace × Cursor σ → Prop
  | lineEnding : c.context.ephemeralLineEnding = true → ScanOutcome code place c
      ({ c with context.ephemeralLineEnding := false }.acceptRead.flush .literal).endLine
  | newline : c.context.ephemeralLineEnding = false → c.current = .newline →
      ScanOutcome code place c (.start, c.bump)
  | doubled : c.context.ephemeralLineEnding = false → c.current = .transition →
      c.nth 1 = .transition → ScanOutcome code place c
        (.inside, ((c.acceptRead.flush .literal).bump.flush .ephemeral).bump)
  | code : c.context.ephemeralLineEnding = false → c.current = .transition →
      c.nth 1 ≠ .transition → ScanOutcome code place c (.inside, code.block (c.beforeCode place))
  | comment : c.context.ephemeralLineEnding = false → c.current = .commentOpen →
      ScanOutcome code place c (.inside, code.comment (c.beforeComment place))
  | commentLine : c.context.ephemeralLineEnding = false → c.current = .commentOpen →
      (place ≠ .inside ∨ c.atLineStart = true) →
      ScanOutcome code place c (code.comment (c.beforeComment place)).endLine
  | other : c.context.ephemeralLineEnding = false → c.current ≠ .newline →
      c.current ≠ .transition → c.current ≠ .commentOpen → ScanOutcome code place c
        (if c.current = .whitespace ∧ place ≠ .inside then .indent else .inside,
          c.acceptRead.advance)

theorem scanStep_outcome (code : EmbeddedCode σ) (place : LinePlace) (c : Cursor σ) :
    ScanOutcome code place c (c.scanStep code place) := by
  unfold scanStep
  split
  · next hflag => exact .lineEnding hflag
  · next hflag =>
    have hflag : c.context.ephemeralLineEnding = false := by simpa using hflag
    split
    · next hk => exact .newline hflag hk
    · next hk =>
      split
      · next hn => exact .doubled hflag hk hn
      · next hn => exact .code hflag hk hn
    · next hk =>
      dsimp only
      split
      · next hlead => exact .commentLine hflag hk (by simpa using hlead)
      · exact .comment hflag hk
    · next h1 h2 h3 => exact .other hflag h1 h2 h3

/-- Blanks that begin a line are one held token. -/
def HoldsIndent (place : LinePlace) (c : Cursor σ) : Prop := place = .indent → ∃ t, c.held = [t]

theorem endLine_ne_indent (c : Cursor σ) : c.endLine.1 ≠ .indent := by
  unfold endLine
  dsimp only
  split <;> decide

/-- The held token is blank. -/
def HoldsBlanks (place : LinePlace) (c : Cursor σ) : Prop :=
  place = .indent → ∃ t, c.held = [t] ∧ t.kind = .whitespace

theorem HoldsBlanks.of_ne (h : place ≠ .indent) : HoldsBlanks place c :=
  fun hplace => absurd hplace h

theorem HoldsBlanks.holdsIndent (h : HoldsBlanks place c) : HoldsIndent place c := by
  intro hplace
  obtain ⟨t, ht, -⟩ := h hplace
  exact ⟨t, ht⟩

theorem holdsBlanks_scanStep (hne : c.ahead ≠ []) (place : LinePlace) :
    HoldsBlanks (c.scanStep code place).1 (c.scanStep code place).2 := by
  have ho := scanStep_outcome code place c
  generalize c.scanStep code place = r at ho ⊢
  intro hi
  cases ho with
  | lineEnding => exact absurd hi (endLine_ne_indent _)
  | commentLine => exact absurd hi (endLine_ne_indent _)
  | newline | doubled | code | comment => cases hi
  | other =>
    obtain ⟨t, rest, ha⟩ := List.exists_cons_of_ne_nil hne
    refine ⟨t, by simp [advance, ha], ?_⟩
    dsimp only at hi
    split at hi
    · next hblank => exact (current_cons ha).symm.trans hblank.1
    · cases hi

theorem holdsIndent_scanStep (hne : c.ahead ≠ []) (place : LinePlace) :
    HoldsIndent (c.scanStep code place).1 (c.scanStep code place).2 :=
  (holdsBlanks_scanStep hne place).holdsIndent

namespace Reaches

theorem beforeCode (place : LinePlace) (h : Reaches strict base c₀ ms₀ gain c ms) :
    Reaches strict base c₀ ms₀ gain (c.beforeCode place) ms := by
  unfold Cursor.beforeCode
  split
  · exact h.putBack.flush .literal
  · exact h.acceptRead.flush .literal

theorem beforeComment (place : LinePlace) (h : Reaches strict base c₀ ms₀ gain c ms) :
    Reaches strict base c₀ ms₀ gain (c.beforeComment place) ms :=
  ((h.flush .literal).acceptRead).flush _

theorem scanStep (hl : code.Stepwise strict ok) (place : LinePlace)
    (hok : ok (c.scanStep code place).2.host) (h : Reaches strict base c₀ ms₀ gain c ms) :
    Reaches strict base c₀ ms₀ gain (c.scanStep code place).2 ms := by
  have ho := scanStep_outcome code place c
  generalize c.scanStep code place = r at ho hok ⊢
  cases ho with
  | lineEnding => exact ((h.context _).acceptRead.flush .literal).endLine
  | newline => exact h.bump
  | doubled => exact ((h.acceptRead.flush .literal).bump.flush .ephemeral).bump
  | code => exact (h.beforeCode place).codeBlock hl hok
  | comment => exact (h.beforeComment place).codeComment hl hok
  | commentLine =>
    rw [host_endLine] at hok
    exact ((h.beforeComment place).codeComment hl hok).endLine
  | other => exact h.acceptRead.advance

end Reaches

/-! ### Handing over -/

theorem left_beforeCode (place : LinePlace) (c : Cursor σ) :
    (c.beforeCode place).held = [] ∧ (c.beforeCode place).pending = [] := by
  refine ⟨?_, pending_flush _ _⟩
  unfold Cursor.beforeCode
  split
  · exact (held_flush _ _).trans (held_putBack c)
  · exact (held_flush _ _).trans (held_acceptRead c)

theorem left_beforeComment (place : LinePlace) (c : Cursor σ) :
    (c.beforeComment place).held = [] ∧ (c.beforeComment place).pending = [] :=
  ⟨(held_flush _ _).trans (held_acceptRead _), pending_flush _ _⟩

theorem ahead_beforeCode_ne_nil (hne : c.ahead ≠ []) (place : LinePlace) :
    (c.beforeCode place).ahead ≠ [] := by
  unfold Cursor.beforeCode
  split
  · simp [ahead_putBack, hne]
  · simpa using hne

theorem ahead_beforeComment (place : LinePlace) (c : Cursor σ) :
    (c.beforeComment place).ahead = c.ahead := by simp [beforeComment]

/-- Blanks that are put back have been counted. -/
theorem unread_beforeCode (place : LinePlace) (c : Cursor σ) :
    2 * (c.beforeCode place).unread ≤ scanMeasure place c := by
  unfold Cursor.beforeCode
  split
  · next hindent =>
    obtain ⟨rfl, -⟩ := hindent
    rw [unread_flush, unread_putBack, scanMeasure_indent]
    omega
  · rw [unread_flush, unread_acceptRead]
    exact Nat.le_trans (Nat.le_add_right _ _) (le_scanMeasure place c)

theorem unread_beforeComment (place : LinePlace) (c : Cursor σ) :
    (c.beforeComment place).unread = c.unread := by simp [beforeComment]

theorem host_beforeCode (place : LinePlace) (c : Cursor σ) :
    (c.beforeCode place).host = c.host := by
  unfold beforeCode
  split <;> simp

theorem context_beforeCode (place : LinePlace) (c : Cursor σ) :
    (c.beforeCode place).context = c.context := by
  unfold beforeCode
  split
  · exact context_flush _ _
  · rw [context_flush, context_acceptRead]

theorem context_beforeComment (place : LinePlace) (c : Cursor σ) :
    (c.beforeComment place).context = c.context := by simp [beforeComment]

theorem host_beforeComment (place : LinePlace) (c : Cursor σ) :
    (c.beforeComment place).host = c.host := by simp [beforeComment]

/-! ### The measure -/

/-- An `@` that is doubled is read with the other half. -/
theorem scanMeasure_doubled (h : Sound strict base ms c) (hne : c.ahead ≠ [])
    (hflag : c.context.ephemeralLineEnding = false) :
    scanMeasure .inside ((c.acceptRead.flush .literal).bump.flush .ephemeral).bump <
      scanMeasure place c := by
  have hleast := le_scanMeasure place c
  have hlt := ((Reaches.refl h).acceptRead.flush .literal).sound.unread_bump_lt (by simpa using hne)
  have hle := unread_bump_le ((c.acceptRead.flush .literal).bump.flush .ephemeral)
  rw [unread_flush] at hle hlt
  rw [unread_acceptRead] at hlt
  have hdue : ((c.acceptRead.flush .literal).bump.flush .ephemeral).bump.lineEndingDue = 0 :=
    lineEndingDue_of_not (by simpa using hflag)
  rw [scanMeasure_inside, hdue]
  omega

/-- The tokens that are held and not read count for less than the place does. -/
theorem unread_lt_scanMeasure (h : Sound strict base ms c) (hi : HoldsIndent place c)
    (hplace : place ≠ .inside) : 2 * c.unread + c.lineEndingDue < scanMeasure place c := by
  cases place with
  | inside => exact absurd rfl hplace
  | start => exact Nat.lt_succ_self _
  | indent =>
    obtain ⟨u, hheld⟩ := hi rfl
    have hpos : 0 < u.text.length :=
      List.length_pos_iff.mpr (h.nonempty u (by simp [tokens, hheld]))
    rw [scanMeasure_indent, hheld, Token.textOf_cons, List.length_append]
    omega

/-- A token that is held has been read, and blanks that begin a line are held once. -/
theorem scanMeasure_held (h : Sound strict base ms c) (hi : HoldsIndent place c) (hne : c.ahead ≠ []) :
    scanMeasure (if c.current = .whitespace ∧ place ≠ .inside then .indent else .inside)
      c.acceptRead.advance < scanMeasure place c := by
  have hleast := le_scanMeasure place c
  obtain ⟨t, rest, ha⟩ := List.exists_cons_of_ne_nil hne
  have hu := unread_cons ha
  have hfirst : 0 < t.text.length := currentText_cons ha ▸ h.currentText_pos hne
  have hunread : c.acceptRead.advance.unread = (Token.textOf rest).length := by
    simp [unread, advance, ha]
  have hheld : c.acceptRead.advance.held = [t] := by simp [advance, ha]
  have hdue : c.acceptRead.advance.lineEndingDue = c.lineEndingDue :=
    lineEndingDue_congr ((context_advance _).trans (context_acceptRead c))
  split
  · next hblank =>
    have hplace := unread_lt_scanMeasure h hi hblank.2
    rw [scanMeasure_indent, hunread, hdue, hheld, Token.textOf_cons, Token.textOf_nil,
      List.append_nil]
    omega
  · rw [scanMeasure_inside, hunread, hdue]
    omega

/-- A step of a scan makes the measure smaller. -/
theorem scanMeasure_scanStep (hl : code.Stepwise strict ok) (h : Sound strict base ms c)
    (hi : HoldsIndent place c) (hne : c.ahead ≠ []) (hok : ok (c.scanStep code place).2.host) :
    scanMeasure (c.scanStep code place).1 (c.scanStep code place).2 < scanMeasure place c := by
  have hr := Reaches.refl h
  have hleast := le_scanMeasure place c
  have ho := scanStep_outcome code place c
  generalize c.scanStep code place = r at ho hok ⊢
  cases ho with
  | lineEnding hflag =>
    have hd := ((hr.context { c.context with ephemeralLineEnding := false }).acceptRead.flush
      .literal).sound
    have hend := scanMeasure_endLine hd
    rw [unread_flush, unread_acceptRead, lineEndingDue_of_not (by simp)] at hend
    have hdue : c.lineEndingDue = 1 := by simp [lineEndingDue, hflag]
    have hsame : { c with context.ephemeralLineEnding := false }.unread = c.unread := rfl
    omega
  | newline hflag =>
    have hlt := h.unread_bump_lt hne
    have hdue : c.bump.lineEndingDue = 0 := lineEndingDue_of_not (by simpa using hflag)
    dsimp only
    rw [scanMeasure_start, hdue]
    omega
  | doubled hflag => exact scanMeasure_doubled h hne hflag
  | code hflag =>
    have hcall := hl.unread_block (hr.beforeCode place).sound (left_beforeCode place c).1
      (ahead_beforeCode_ne_nil hne place) hok
    have hbefore := unread_beforeCode place c
    have hdue := lineEndingDue_le (code.block (c.beforeCode place))
    dsimp only
    rw [scanMeasure_inside]
    omega
  | comment hflag =>
    have hcall := hl.unread_comment (hr.beforeComment place).sound (left_beforeComment place c).1
      (by rwa [ahead_beforeComment]) hok
    rw [unread_beforeComment] at hcall
    have hdue := lineEndingDue_le (code.comment (c.beforeComment place))
    dsimp only
    rw [scanMeasure_inside]
    omega
  | commentLine hflag =>
    rw [host_endLine] at hok
    have hcall := hl.unread_comment (hr.beforeComment place).sound (left_beforeComment place c).1
      (by rwa [ahead_beforeComment]) hok
    rw [unread_beforeComment] at hcall
    have hdue := lineEndingDue_le (code.comment (c.beforeComment place))
    have hend := scanMeasure_endLine ((hr.beforeComment place).codeComment hl hok).sound
    omega
  | other => exact scanMeasure_held h hi hne

/-! ## Whole scans -/

/-- A scan that ends without a fault holds nothing. -/
theorem held_scanFrom {stop : Cursor σ → Bool} {bound : Nat}
    (h : (scanFrom code stop bound place c).fault = none) :
    (scanFrom code stop bound place c).held = [] := by
  induction bound generalizing place c with
  | zero => simp [scanFrom, fail] at h
  | succ bound ih =>
    unfold scanFrom at h ⊢
    split at h
    · next hstop =>
      rw [if_pos hstop]
      rfl
    · next hstop =>
      rw [if_neg hstop]
      exact ih h

namespace Reaches

theorem scanFrom (hl : code.Stepwise strict ok) (stop : Cursor σ → Bool) {bound : Nat}
    (hi : HoldsIndent place c) (hb : scanMeasure place c < bound)
    (hok : ok (Cursor.scanFrom code stop bound place c).host)
    (h : Reaches strict base c₀ ms₀ gain c ms) :
    Reaches strict base c₀ ms₀ gain (Cursor.scanFrom code stop bound place c) ms := by
  induction bound generalizing place c with
  | zero => exact absurd hb (Nat.not_lt_zero _)
  | succ bound ih =>
    unfold Cursor.scanFrom at hok ⊢
    split
    · exact h.acceptRead
    · next hstop =>
      rw [if_neg hstop] at hok
      have hne : c.ahead ≠ [] := ahead_ne_nil_of_not_atEnd fun he => hstop (by simp [he])
      have hoks := hl.respects.scanFrom stop bound _ _ hok
      exact ih (holdsIndent_scanStep hne place)
        (Nat.lt_of_lt_of_le (scanMeasure_scanStep hl h.sound hi hne hoks) (Nat.le_of_lt_succ hb))
        hok (h.scanStep hl place hoks)

theorem skipUntil (hl : code.Stepwise strict ok) (stop : Cursor σ → Bool)
    (hok : ok (c.skipUntil code stop).host) (h : Reaches strict base c₀ ms₀ gain c ms) :
    Reaches strict base c₀ ms₀ gain (c.skipUntil code stop) ms :=
  h.scanFrom hl stop (fun hi => nomatch hi) (scanMeasure_lt_budget code c) hok

theorem skipTo (hl : code.Stepwise strict ok) (kind : Kind) (hok : ok (c.skipTo code kind).host)
    (h : Reaches strict base c₀ ms₀ gain c ms) :
    Reaches strict base c₀ ms₀ gain (c.skipTo code kind) ms :=
  h.skipUntil hl _ hok

theorem acceptThroughFrom (hl : code.Stepwise strict ok) (first : Kind) (rest : List Kind) {bound : Nat}
    (hb : c.unclaimed < bound) (hok : ok (Cursor.acceptThroughFrom code first rest bound c).2.host)
    (h : Reaches strict base c₀ ms₀ gain c ms) :
    Reaches strict base c₀ ms₀ gain (Cursor.acceptThroughFrom code first rest bound c).2 ms := by
  induction bound generalizing c gain with
  | zero => exact absurd hb (Nat.not_lt_zero _)
  | succ bound ih =>
    have hoks : ok (c.skipTo code first).host := by
      unfold Cursor.acceptThroughFrom at hok
      dsimp only at hok
      split at hok
      · exact hok
      · split at hok
        · simpa using hok
        · simpa using hl.respects.acceptThroughFrom first rest bound _ hok
    have hs := h.skipTo hl first hoks
    unfold Cursor.acceptThroughFrom at hok ⊢
    dsimp only at hok ⊢
    split
    · exact hs
    · next hend =>
      rw [if_neg hend] at hok
      have hne := ahead_ne_nil_of_not_atEnd hend
      split
      · exact hs.bumpN _
      · next hsees =>
        rw [if_neg hsees] at hok
        have hlt := hs.sound.unclaimed_bump_lt hne
        have hle := ((Reaches.refl h.sound).skipTo hl first hoks).gained
        exact (ih (by omega) hok (hs.bump_gain hne)).weaken (Nat.le_succ _)

theorem acceptThrough (hl : code.Stepwise strict ok) (first : Kind) (rest : List Kind)
    (hok : ok (c.acceptThrough code first rest).2.host) (h : Reaches strict base c₀ ms₀ gain c ms) :
    Reaches strict base c₀ ms₀ gain (c.acceptThrough code first rest).2 ms :=
  h.acceptThroughFrom hl first rest (Nat.lt_succ_self _) hok

end Reaches

end TemplateMarkup.Cursor
