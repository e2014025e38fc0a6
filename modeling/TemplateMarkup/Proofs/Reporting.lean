import TemplateMarkup.Markup.Nested
import TemplateMarkup.Proofs.Moves
import TemplateMarkup.Proofs.Scanning

/-! # What reports nothing

Scans, special tags and attributes leave the diagnostics as they are, if the code
inside them does. So only what reads the ends of tags and of the unit reports. -/

namespace TemplateMarkup

/-- Neither code nor comments report anything. -/
structure EmbeddedCode.Mute {σ : Type} (code : EmbeddedCode σ) : Prop where
  block (c : Cursor σ) : (code.block c).diagnostics = c.diagnostics
  comment (c : Cursor σ) : (code.comment c).diagnostics = c.diagnostics

namespace Cursor

variable {σ : Type} {code : EmbeddedCode σ}

/-! ## Reading -/

@[simp] theorem diagnostics_bumpN (c : Cursor σ) (n : Nat) :
    (c.bumpN n).diagnostics = c.diagnostics := (Moves.bumpN c n).diagnostics

@[simp] theorem diagnostics_bumpWhile (c : Cursor σ) (test : Token → Bool) :
    (c.bumpWhile test).diagnostics = c.diagnostics := diagnostics_bumpN c _

@[simp] theorem diagnostics_eat (c : Cursor σ) (kind : Kind) :
    (c.eat kind).2.diagnostics = c.diagnostics := (Moves.eat c kind).diagnostics

@[simp] theorem diagnostics_putBack (c : Cursor σ) : c.putBack.diagnostics = c.diagnostics := rfl

@[simp] theorem diagnostics_start (c : Cursor σ) : c.start.2.diagnostics = c.diagnostics :=
  diagnostics_flush c _

@[simp] theorem diagnostics_flushRaw (c : Cursor σ) : c.flushRaw.diagnostics = c.diagnostics := rfl

@[simp] theorem diagnostics_missing (c : Cursor σ) (kind : Kind) :
    (c.missing kind).diagnostics = c.diagnostics := diagnostics_flush c _

@[simp] theorem diagnostics_eatName (c : Cursor σ) : c.eatName.diagnostics = c.diagnostics :=
  diagnostics_bumpWhile c _

@[simp] theorem diagnostics_acceptUntil (c : Cursor σ) (kinds : List Kind) :
    (c.acceptUntil kinds).diagnostics = c.diagnostics := diagnostics_bumpWhile c _

@[simp] theorem diagnostics_bangEscape (c : Cursor σ) : c.bangEscape.diagnostics = c.diagnostics := by
  unfold bangEscape
  split <;> simp

@[simp] theorem diagnostics_recoverTextTag (c : Cursor σ) :
    c.recoverTextTag.diagnostics = c.diagnostics := by simp [recoverTextTag]

@[simp] theorem diagnostics_close (t : OpenTag) (c : Cursor σ) :
    (t.close c).diagnostics = c.diagnostics := by
  unfold OpenTag.close
  split <;> simp

theorem diagnostics_foldl_close (tags : OpenTags) (c : Cursor σ) :
    (tags.foldl (fun c t => t.close c) c).diagnostics = c.diagnostics := by
  induction tags generalizing c with
  | nil => rfl
  | cons t rest ih => exact (ih _).trans (diagnostics_close t c)

@[simp] theorem diagnostics_voidEndTag (c : Cursor σ) (name : List Char) :
    (c.voidEndTag name).diagnostics = c.diagnostics := by
  unfold voidEndTag
  dsimp only
  split <;> simp

@[simp] theorem diagnostics_doubledTransition (c : Cursor σ) :
    c.doubledTransition.diagnostics = c.diagnostics := by
  unfold doubledTransition
  dsimp only
  split <;> simp

@[simp] theorem diagnostics_leaveRest (c : Cursor σ) : c.leaveRest.diagnostics = c.diagnostics := by
  unfold leaveRest
  dsimp only
  split <;> simp

/-! ## Implicit code -/

theorem diagnostics_ensureProgress (before : Nat) (c : Cursor σ) :
    (EmbeddedCode.ensureProgress before c).diagnostics = c.diagnostics := by
  unfold EmbeddedCode.ensureProgress
  split <;> simp

theorem diagnostics_implicitExpression (c : Cursor σ) :
    c.implicitExpression.diagnostics = c.diagnostics := by
  unfold implicitExpression
  dsimp only
  split
  · rw [diagnostics_complete, diagnostics_flushRaw, (Moves.expressionBody _).diagnostics,
      diagnostics_bumpN, diagnostics_start]
  · rfl

theorem diagnostics_inlineComment (c : Cursor σ) : c.inlineComment.diagnostics = c.diagnostics := by
  unfold inlineComment
  split <;> simp

theorem mute_implicit : (EmbeddedCode.implicit : EmbeddedCode σ).Mute where
  block c := (diagnostics_ensureProgress _ _).trans (diagnostics_implicitExpression c)
  comment c := (diagnostics_ensureProgress _ _).trans (diagnostics_inlineComment c)

/-! ## Scans -/

@[simp] theorem diagnostics_endLine (c : Cursor σ) : c.endLine.2.diagnostics = c.diagnostics := by
  unfold endLine ephemeralLineEnd
  generalize (if c.at? .whitespace then 1 else 0) = blanks
  dsimp only
  split <;> simp

@[simp] theorem diagnostics_beforeCode (place : LinePlace) (c : Cursor σ) :
    (c.beforeCode place).diagnostics = c.diagnostics := by
  unfold beforeCode
  split <;> simp

@[simp] theorem diagnostics_beforeComment (place : LinePlace) (c : Cursor σ) :
    (c.beforeComment place).diagnostics = c.diagnostics := by
  simp [beforeComment]

theorem diagnostics_scanStep (hm : code.Mute) (place : LinePlace) (c : Cursor σ) :
    (c.scanStep code place).2.diagnostics = c.diagnostics := by
  have ho := scanStep_outcome code place c
  generalize c.scanStep code place = r at ho ⊢
  cases ho with
  | lineEnding | newline | doubled | other => simp
  | code => exact (hm.block _).trans (diagnostics_beforeCode place c)
  | comment => exact (hm.comment _).trans (diagnostics_beforeComment place c)
  | commentLine =>
    rw [diagnostics_endLine, hm.comment, diagnostics_beforeComment]

theorem diagnostics_scanFrom (hm : code.Mute) (stop : Cursor σ → Bool) (bound : Nat)
    (place : LinePlace) (c : Cursor σ) :
    (scanFrom code stop bound place c).diagnostics = c.diagnostics := by
  induction bound generalizing place c with
  | zero => rfl
  | succ bound ih =>
    unfold scanFrom
    split
    · exact diagnostics_acceptRead c
    · exact (ih _ _).trans (diagnostics_scanStep hm place c)

theorem diagnostics_skipUntil (hm : code.Mute) (c : Cursor σ) (stop : Cursor σ → Bool) :
    (c.skipUntil code stop).diagnostics = c.diagnostics := diagnostics_scanFrom hm ..

theorem diagnostics_skipTo (hm : code.Mute) (c : Cursor σ) (kind : Kind) :
    (c.skipTo code kind).diagnostics = c.diagnostics := diagnostics_skipUntil hm ..

theorem diagnostics_acceptThroughFrom (hm : code.Mute) (first : Kind) (rest : List Kind)
    (bound : Nat) (c : Cursor σ) :
    (acceptThroughFrom code first rest bound c).2.diagnostics = c.diagnostics := by
  induction bound generalizing c with
  | zero => rfl
  | succ bound ih =>
    have hskip := diagnostics_skipTo hm c first
    unfold acceptThroughFrom
    dsimp only
    split
    · exact hskip
    · split
      · exact (diagnostics_bumpN _ _).trans hskip
      · exact ((ih _).trans (diagnostics_bump _)).trans hskip

theorem diagnostics_acceptThrough (hm : code.Mute) (c : Cursor σ) (first : Kind) (rest : List Kind) :
    (c.acceptThrough code first rest).2.diagnostics = c.diagnostics :=
  diagnostics_acceptThroughFrom hm ..

/-! ## Special tags -/

theorem diagnostics_commentBodyFrom (hm : code.Mute) (bound : Nat) (c : Cursor σ) :
    (commentBodyFrom code bound c).2.diagnostics = c.diagnostics := by
  induction bound generalizing c with
  | zero => rfl
  | succ bound ih =>
    have hskip := diagnostics_skipTo hm c .doubleHyphen
    unfold commentBodyFrom
    dsimp only
    split
    · exact hskip
    · split
      · simpa using hskip
      · exact ((ih _).trans (diagnostics_bump _)).trans hskip

theorem diagnostics_specialTag (hm : code.Mute) (c : Cursor σ) :
    (c.specialTag code).2.diagnostics = c.diagnostics := by
  unfold specialTag
  split
  · unfold bangTag
    split
    · unfold htmlComment
      dsimp only
      rw [diagnostics_complete, diagnostics_commentBodyFrom hm]
      simp
    · dsimp only
      rw [diagnostics_flush]
      split
      · rw [diagnostics_acceptThrough hm, diagnostics_bumpN, diagnostics_bumpN]
      · rw [diagnostics_acceptThrough hm, diagnostics_bumpN]
  · unfold instruction
    dsimp only
    rw [diagnostics_flush, diagnostics_acceptThrough hm, diagnostics_bumpN]

/-! ## Attributes -/

theorem diagnostics_attributeValue (hm : code.Mute) (c : Cursor σ) :
    (c.attributeValue code).2.diagnostics = c.diagnostics := by
  unfold attributeValue
  dsimp only
  split
  · rw [diagnostics_eat, diagnostics_complete, diagnostics_skipTo hm, diagnostics_start,
      diagnostics_bump]
  · rw [diagnostics_complete, diagnostics_skipUntil hm, diagnostics_start]

theorem diagnostics_readAttribute (hm : code.Mute) (c : Cursor σ) :
    (c.readAttribute code).2.diagnostics = c.diagnostics := by
  unfold readAttribute
  dsimp only
  rw [diagnostics_complete]
  split
  · dsimp only
    rw [diagnostics_attributeValue hm]
    simp
  · simp

theorem diagnostics_attributesFrom (hm : code.Mute) (bound : Nat) (c : Cursor σ) :
    (attributesFrom code bound c).2.diagnostics = c.diagnostics := by
  induction bound generalizing c with
  | zero => rfl
  | succ bound ih =>
    have hspacing := diagnostics_bumpWhile c (·.kind.isTrivia)
    unfold attributesFrom
    dsimp only
    split
    · exact hspacing
    · exact hspacing
    · exact hspacing
    · split
      · exact hspacing
      · rw [ih, diagnostics_bump, hspacing]
    · rw [ih, hm.block, diagnostics_flush, hspacing]
    · rw [ih, hm.comment, diagnostics_flush, hspacing]
    · rw [ih, diagnostics_bump, hspacing]
    · rw [ih, diagnostics_bump, hspacing]
    · rw [ih, diagnostics_bump, hspacing]
    · dsimp only
      rw [ih, diagnostics_readAttribute hm, hspacing]

theorem diagnostics_attributes (hm : code.Mute) (c : Cursor σ) :
    (c.attributes code).2.diagnostics = c.diagnostics := diagnostics_attributesFrom hm ..

/-! ## Parts of a unit -/

theorem diagnostics_singleLine (hm : code.Mute) (c : Cursor σ) :
    (c.singleLine code).diagnostics = c.diagnostics := by
  unfold singleLine
  dsimp only
  rw [diagnostics_flush]
  dsimp only
  rw [diagnostics_eat, diagnostics_skipTo hm]

@[simp] theorem diagnostics_nestingText (c : Cursor σ) (opener closer : List Char) (depth : Nat) :
    (c.nestingText opener closer depth).2.diagnostics = c.diagnostics := by
  unfold nestingText
  split
  · simp
  · split
    · rfl
    · split
      · dsimp only
        split <;> simp
      · simp
  · simp

end Cursor

end TemplateMarkup
