import TemplateMarkup.Proofs.Attributes

/-! # Implicit expressions are lawful code

An implicit expression leaves the host's state alone, so it is lawful whatever
is asked of that state: it is a path, and wherever the cursor has a token to
offer, the expression or the skipped token claims it. -/

namespace TemplateMarkup.Cursor

variable {σ : Type} {strict : Prop} {base : List Event} {c₀ c d : Cursor σ}
  {ms₀ ms : List Marker} {gain : Nat}

/-! ## Nothing is held back -/

theorem acceptKeeps_held : AcceptKeeps fun c : Cursor σ => c.held = [] where
  bump := held_bump_of_held
  front count h := held_bump_of_held ((held_splitAfter _ count).trans h)

theorem held_expressionBody (h : c.held = []) : c.expressionBody.held = [] :=
  acceptKeeps_held.expressionBody (fun _ => id) h

theorem held_implicitExpression (h : c.held = []) : c.implicitExpression.held = [] := by
  unfold implicitExpression
  dsimp only
  split
  · rw [held_complete]
    exact held_expressionBody (held_bumpN ((held_start c).trans h) _)
  · exact h

theorem held_inlineComment (h : c.held = []) : c.inlineComment.held = [] := by
  unfold inlineComment
  split
  · dsimp only
    rw [held_complete]
    exact held_eat (held_bumpN (held_bump_of_held ((held_start c).trans h)) _) _
  · exact h

/-! ## Expressions and comments are paths -/

namespace Reaches

theorem acceptKeeps : AcceptKeeps fun c => Reaches strict base c₀ ms₀ gain c ms where
  bump h := h.bump
  front count h := (h.splitAfter count).bump

theorem balanced (b : Brackets) (h : Reaches strict base c₀ ms₀ gain c ms) :
    Reaches strict base c₀ ms₀ gain (c.balanced b) ms := acceptKeeps.balanced b h

/-- A group takes at least the token that it begins with, or the part of it up
to its closing bracket. -/
theorem balanced_gain (b : Brackets) (hne : c.ahead ≠ []) (h : Reaches strict base c₀ ms₀ gain c ms) :
    Reaches strict base c₀ ms₀ (gain + 1) (c.balanced b) ms := by
  obtain ⟨t, rest, ha⟩ := List.exists_cons_of_ne_nil hne
  unfold Cursor.balanced
  rw [ha, Cursor.balancedFrom]
  split
  · exact (h.splitAfter _).bump_gain (ahead_splitAfter_ne_nil hne _)
  · exact acceptKeeps.balancedFrom b _ _ (h.bump_gain hne)

theorem groups {bound : Nat} (hb : c.unclaimed < bound) (h : Reaches strict base c₀ ms₀ gain c ms) :
    Reaches strict base c₀ ms₀ gain (c.groups bound) ms := by
  induction bound generalizing c with
  | zero => exact absurd hb (Nat.not_lt_zero _)
  | succ bound ih =>
    have hgroup (b : Brackets) (hne : c.ahead ≠ []) :
        Reaches strict base c₀ ms₀ gain ((c.balanced b).groups bound) ms := by
      have hlt := ((Reaches.refl h.sound).balanced_gain b hne).gained
      exact ih (by omega) (h.balanced b)
    unfold Cursor.groups
    split
    · next ht =>
      have ht := (Bool.and_eq_true _ _).mp ht
      exact hgroup .round (ahead_ne_nil_of_at ht.1 (by decide))
    · split
      · next hk => exact hgroup .square (ahead_ne_nil_of_at hk (by decide))
      · exact h

theorem expressionBody (h : Reaches strict base c₀ ms₀ gain c ms) :
    Reaches strict base c₀ ms₀ gain c.expressionBody ms := by
  unfold Cursor.expressionBody
  split
  · exact h.balanced _
  · split
    · exact h.balanced _
    · split
      · exact ((h.splitAfter _).bump).groups (Nat.lt_succ_self _)
      · exact h

theorem implicitExpression (h : Reaches strict base c₀ ms₀ gain c ms) :
    Reaches strict base c₀ ms₀ gain c.implicitExpression ms := by
  unfold Cursor.implicitExpression
  dsimp only
  split
  · exact ((h.start.bumpN _).expressionBody.flushRaw).complete .codeBlock
  · exact h

theorem inlineComment (h : Reaches strict base c₀ ms₀ gain c ms) :
    Reaches strict base c₀ ms₀ gain c.inlineComment ms := by
  unfold Cursor.inlineComment
  split
  · exact (((h.start.bump.bumpWhile _).eat _).flushRaw).complete .inlineComment
  · exact h

end Reaches

/-! ## Claims -/

theorem unclaimed_ensureProgress_le (before : Nat) (c : Cursor σ) :
    (EmbeddedCode.ensureProgress before c).unclaimed ≤ c.unclaimed := by
  unfold EmbeddedCode.ensureProgress
  split
  · rw [unclaimed_flush]
    exact unclaimed_bump_le c
  · exact Nat.le_refl _

/-- A call that does nothing has the next token skipped. -/
theorem Sound.claims_self (h : Sound strict base ms c) (hne : c.ahead ≠ []) :
    (EmbeddedCode.ensureProgress c.position c).unclaimed < c.unclaimed := by
  unfold EmbeddedCode.ensureProgress
  rw [if_pos ⟨rfl, by simpa [atEnd] using hne⟩, unclaimed_flush]
  exact h.unclaimed_bump_lt hne

theorem unclaimed_start_bump (c : Cursor σ) : c.start.2.bump.unclaimed = c.bump.unclaimed := by
  cases ha : c.ahead with
  | nil => rw [bump_nil ha, bump_nil (by rw [ahead_start]; exact ha), unclaimed_start]
  | cons t rest =>
    have h1 := unclaimed_bump ha
    have h2 := unclaimed_bump (c := c.start.2) (by rw [ahead_start]; exact ha)
    rw [held_start, unclaimed_start] at h2
    omega

theorem claims_implicitExpression (h : Sound strict base ms c) (hne : c.ahead ≠ []) :
    (EmbeddedCode.ensureProgress c.position c.implicitExpression).unclaimed < c.unclaimed := by
  unfold implicitExpression
  dsimp only
  split
  · generalize c.runLength (·.kind == .whitespace) 0 = blanks
    have hb := (Reaches.refl h).start.bump
    have hrest := ((((Reaches.refl hb.sound).bumpN blanks).expressionBody).flushRaw.complete
      .codeBlock).gained
    rw [unclaimed_start_bump, Nat.add_zero] at hrest
    exact Nat.lt_of_le_of_lt (Nat.le_trans (unclaimed_ensureProgress_le _ _) hrest)
      (h.unclaimed_bump_lt hne)
  · exact h.claims_self hne

theorem claims_inlineComment (h : Sound strict base ms c) (hne : c.ahead ≠ []) :
    (EmbeddedCode.ensureProgress c.position c.inlineComment).unclaimed < c.unclaimed := by
  unfold inlineComment
  split
  · have hb := (Reaches.refl h).start.bump
    have hrest := ((((Reaches.refl hb.sound).bumpWhile (·.kind != .commentClose)).eat
      .commentClose).flushRaw.complete .inlineComment).gained
    rw [unclaimed_start_bump, Nat.add_zero] at hrest
    exact Nat.lt_of_le_of_lt (Nat.le_trans (unclaimed_ensureProgress_le _ _) hrest)
      (h.unclaimed_bump_lt hne)
  · exact h.claims_self hne

theorem patient_implicit (strict : Prop) (ok : σ → Prop) :
    (EmbeddedCode.implicit : EmbeddedCode σ).Patient strict ok where
  respects :=
    { refl := fun _ => id
      trans := fun h h' hu => h (h' hu)
      parseBlock := fun c => by simp [EmbeddedCode.implicit]
      parseComment := fun c => by simp [EmbeddedCode.implicit] }
  block h _ := ((Reaches.refl h).implicitExpression).path
  comment h _ := ((Reaches.refl h).inlineComment).path
  patience :=
    { refl := fun _ => Nat.le_refl _
      trans := fun h h' => Nat.le_trans h' h
      parseBlock := fun _ => Nat.le_refl _
      parseComment := fun _ => Nat.le_refl _ }
  block_claims h hne _ := .inr (claims_implicitExpression h hne)
  comment_claims h hne _ := .inr (claims_inlineComment h hne)

theorem tidy_implicit (strict : Prop) (ok : σ → Prop) :
    (EmbeddedCode.implicit : EmbeddedCode σ).Tidy strict ok where
  toStepwise := (patient_implicit strict ok).toStepwise
  block_held _ hh _ := held_implicitExpression hh
  comment_held _ hh _ := held_inlineComment hh

theorem lawful_implicit (strict : Prop) (ok : σ → Prop) :
    (EmbeddedCode.implicit : EmbeddedCode σ).Lawful strict ok := (patient_implicit strict ok).lawful

end TemplateMarkup.Cursor
