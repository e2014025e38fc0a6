import TemplateMarkup.Proofs.FreeScans
import TemplateMarkup.Proofs.Parallel.Cursors

/-! # Scans of two parses side by side

A scan decides by the kinds of tokens and by its place in the line, so two scans
stay side by side. Only in front of code at the beginning of a line does a parse
at design time differ, since it leaves the blanks there to the markup; that the
code takes the two to the same place is asked of the code parser. -/

namespace TemplateMarkup

open Cursor

variable {σ : Type}

/-- A code parser that keeps two parses side by side. -/
structure EmbeddedCode.Agrees (code : EmbeddedCode σ) (k : Comparison) : Prop where
  lawful : code.Lawful False fun _ => True
  block {ms c d} : Parallel k ms c d → Parallel k ms (code.parseBlock c) (code.parseBlock d)
  comment {ms c d} : Parallel k ms c d → Parallel k ms (code.parseComment c) (code.parseComment d)
  /-- Blanks in front of an `@` are taken along by one call and left in front of it by the other. -/
  indent {ms c d t} : k.editing = true → Aligned k ms c d → c.held = [t] → t.kind = .whitespace →
    c.current = .transition →
    Parallel k ms (code.block (c.putBack.flush .literal)) (code.block (d.acceptRead.flush .literal))

namespace Cursor

variable {k : Comparison} {ms : List (Marker × Marker)} {c d : Cursor σ} {code : EmbeddedCode σ}

/-! ## Calls -/

namespace Parallel

theorem ensureProgress (before : Nat) (h : Parallel k ms c d) :
    Parallel k ms (EmbeddedCode.ensureProgress before c) (EmbeddedCode.ensureProgress before d) := by
  unfold EmbeddedCode.ensureProgress
  rw [h.position, h.atEnd]
  split
  · exact h.bump.flush .metacode
  · exact h

theorem codeBlock (ha : code.Agrees k) (h : Parallel k ms c d) :
    Parallel k ms (code.block c) (code.block d) := by
  unfold EmbeddedCode.block
  rw [h.position]
  exact (ha.block h).ensureProgress _

theorem codeComment (ha : code.Agrees k) (h : Parallel k ms c d) :
    Parallel k ms (code.comment c) (code.comment d) := by
  unfold EmbeddedCode.comment
  rw [h.position]
  exact (ha.comment h).ensureProgress _

theorem endLine (h : Parallel k ms c d) :
    d.endLine.1 = c.endLine.1 ∧ Parallel k ms c.endLine.2 d.endLine.2 := by
  unfold Cursor.endLine Cursor.ephemeralLineEnd
  rw [h.at?]
  generalize (if c.at? .whitespace then 1 else 0) = blanks
  dsimp only
  rw [h.nth]
  split
  · exact ⟨rfl, (h.bumpN _).flush .ephemeral⟩
  · exact ⟨rfl, h⟩

end Parallel

/-! ## One step -/

namespace Aligned

theorem ephemeralLineEnding (h : Aligned k ms c d) :
    d.context.ephemeralLineEnding = c.context.ephemeralLineEnding := by rw [h.context]

theorem clearLineEnding (h : Aligned k ms c d) :
    Aligned k ms { c with context.ephemeralLineEnding := false }
      { d with context.ephemeralLineEnding := false } :=
  h.setContext h.options h.caseSensitive (by rw [h.context])

/-- The code in front of the cursor is handed over. -/
theorem handOver (ha : code.Agrees k) {place : LinePlace} (hb : HoldsBlanks place c)
    (hk : c.current = .transition) (h : Aligned k ms c d) :
    Parallel k ms (code.block (c.beforeCode place)) (code.block (d.beforeCode place)) := by
  unfold Cursor.beforeCode
  have hdesign : d.context.options.designTime = (c.context.options.designTime || k.editing) := by
    rw [h.context, h.options]
    rfl
  by_cases hplace : place = .indent
  · obtain ⟨t, ht, hblank⟩ := hb hplace
    cases he : k.editing with
    | false =>
      rw [he, Bool.or_false] at hdesign
      rw [hdesign]
      split
      · exact (h.putBack.flush .literal).codeBlock ha
      · exact (h.acceptRead.flush .literal).codeBlock ha
    | true =>
      have hoff : c.context.options.designTime = false := by rw [h.options, k.designTime he]
      rw [hoff, he, Bool.or_true] at hdesign
      rw [if_pos ⟨hplace, by simp [hoff]⟩, if_neg (by simp [hdesign])]
      exact ha.indent he h ht hblank hk
  · rw [if_neg fun hindent => hplace hindent.1, if_neg fun hindent => hplace hindent.1]
    exact (h.acceptRead.flush .literal).codeBlock ha

theorem scanStep (ha : code.Agrees k) {place : LinePlace} (hb : HoldsBlanks place c)
    (h : Aligned k ms c d) : (d.scanStep code place).1 = (c.scanStep code place).1 ∧
      Aligned k ms (c.scanStep code place).2 (d.scanStep code place).2 := by
  unfold Cursor.scanStep
  rw [h.ephemeralLineEnding, h.current]
  split
  · have hline := (h.clearLineEnding.acceptRead.flush .literal).endLine
    exact ⟨hline.1, hline.2.toAligned⟩
  · split
    · exact ⟨rfl, h.bump⟩
    · next hk =>
      rw [h.nth]
      split
      · exact ⟨rfl, ((h.acceptRead.flush .literal).bump.flush .ephemeral).bump.toAligned⟩
      · exact ⟨rfl, (h.handOver ha hb hk).toAligned⟩
    · have hc := ((h.flush .literal).acceptRead.flush
        (if place = .indent then .ephemeral else .literal)).codeComment ha
      have hstart : d.atLineStart = c.atLineStart := by
        rw [Cursor.atLineStart, Cursor.atLineStart, h.previous?]
      dsimp only
      rw [hstart]
      split
      · exact ⟨hc.endLine.1, hc.endLine.2.toAligned⟩
      · exact ⟨rfl, hc.toAligned⟩
    · exact ⟨rfl, h.acceptRead.toAligned.advance⟩

end Aligned

/-! ## Whole scans -/

/-- Two scans that both end without a fault end side by side, whatever their bounds. -/
theorem Aligned.scanFrom (ha : code.Agrees k) {stop : Cursor σ → Bool} (hs : KindTest stop)
    {bound bound' : Nat} {place : LinePlace} (hb : HoldsBlanks place c)
    (hc : (Cursor.scanFrom code stop bound place c).fault = none)
    (hd : (Cursor.scanFrom code stop bound' place d).fault = none) (h : Aligned k ms c d) :
    Parallel k ms (Cursor.scanFrom code stop bound place c)
      (Cursor.scanFrom code stop bound' place d) := by
  induction bound generalizing bound' place c d with
  | zero => simp [Cursor.scanFrom, fail] at hc
  | succ bound ih =>
    cases bound' with
    | zero => simp [Cursor.scanFrom, fail] at hd
    | succ bound' =>
      unfold Cursor.scanFrom at hc hd ⊢
      rw [h.atEnd, hs h.nth] at hd ⊢
      by_cases hend : (c.atEnd || stop c) = true
      · rw [if_pos hend, if_pos hend]
        exact h.acceptRead
      · rw [if_neg hend] at hc hd
        rw [if_neg hend, if_neg hend]
        have hne : c.ahead ≠ [] := ahead_ne_nil_of_not_atEnd fun he => hend (by simp [he])
        have hblanks := @holdsBlanks_scanStep _ code _ hne place
        have hstep := h.scanStep ha hb
        generalize c.scanStep code place = x, d.scanStep code place = y at *
        obtain ⟨place, c⟩ := x
        obtain ⟨place', d⟩ := y
        obtain ⟨rfl, hstep⟩ : place' = place ∧ Aligned k ms c d := hstep
        exact ih hblanks hc hd hstep

namespace Parallel

theorem skipUntil (ha : code.Agrees k) {stop : Cursor σ → Bool} (hs : KindTest stop)
    (h : Parallel k ms c d) : Parallel k ms (c.skipUntil code stop) (d.skipUntil code stop) :=
  h.toAligned.scanFrom ha hs (fun hi => nomatch hi) (fault_skipUntil ha.lawful h.left stop)
    (fault_skipUntil ha.lawful h.right stop)

theorem skipTo (ha : code.Agrees k) (kind : Kind) (h : Parallel k ms c d) :
    Parallel k ms (c.skipTo code kind) (d.skipTo code kind) :=
  h.skipUntil ha (kindTest_at kind)

theorem acceptUntil (kinds : List Kind) (h : Parallel k ms c d) :
    Parallel k ms (c.acceptUntil kinds) (d.acceptUntil kinds) :=
  h.bumpWhile (k.blind_kind fun kind => !kinds.contains kind)

theorem acceptThroughFrom (ha : code.Agrees k) (first : Kind) (rest : List Kind)
    {bound bound' : Nat} (hc : (Cursor.acceptThroughFrom code first rest bound c).2.fault = none)
    (hd : (Cursor.acceptThroughFrom code first rest bound' d).2.fault = none)
    (h : Parallel k ms c d) :
    (Cursor.acceptThroughFrom code first rest bound' d).1 =
        (Cursor.acceptThroughFrom code first rest bound c).1 ∧
      Parallel k ms (Cursor.acceptThroughFrom code first rest bound c).2
        (Cursor.acceptThroughFrom code first rest bound' d).2 := by
  induction bound generalizing bound' c d with
  | zero => simp [Cursor.acceptThroughFrom, fail] at hc
  | succ bound ih =>
    cases bound' with
    | zero => simp [Cursor.acceptThroughFrom, fail] at hd
    | succ bound' =>
      have hs := h.skipTo ha first
      unfold Cursor.acceptThroughFrom at hc hd ⊢
      dsimp only at hc hd ⊢
      rw [hs.atEnd, hs.sees] at hd ⊢
      split
      · exact ⟨rfl, hs⟩
      · next hend =>
        rw [if_neg hend] at hc hd
        split
        · exact ⟨rfl, hs.bumpN _⟩
        · next hsees =>
          rw [if_neg hsees] at hc hd
          exact ih hc hd hs.bump

theorem acceptThrough (ha : code.Agrees k) (first : Kind) (rest : List Kind)
    (h : Parallel k ms c d) :
    (d.acceptThrough code first rest).1 = (c.acceptThrough code first rest).1 ∧
      Parallel k ms (c.acceptThrough code first rest).2 (d.acceptThrough code first rest).2 :=
  h.acceptThroughFrom ha first rest
    ((Reaches.refl h.left).acceptThrough ha.lawful.toStepwise first rest trivial).sound.fault
    ((Reaches.refl h.right).acceptThrough ha.lawful.toStepwise first rest trivial).sound.fault

end Parallel

end Cursor

end TemplateMarkup
