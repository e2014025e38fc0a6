import TemplateMarkup.Proofs.Attributes
import TemplateMarkup.Proofs.Moves

/-! # The options stay as they are

The markup changes no option, and of the context only what says whether a line
ending is rendered. So the options of a parse are those of every cursor in it, if
its code leaves them alone. -/

namespace TemplateMarkup

/-- Code that leaves the options of the parse as they are. -/
structure EmbeddedCode.KeepsOptions {σ : Type} (code : EmbeddedCode σ) : Prop where
  block (c : Cursor σ) : (code.block c).context.options = c.context.options
  comment (c : Cursor σ) : (code.comment c).context.options = c.context.options

namespace Cursor

variable {σ : Type} {code : EmbeddedCode σ}

/-! ## Reading -/

@[simp] theorem context_eat (c : Cursor σ) (kind : Kind) : (c.eat kind).2.context = c.context :=
  (Moves.eat c kind).context

@[simp] theorem context_bumpWhile (c : Cursor σ) (test : Token → Bool) :
    (c.bumpWhile test).context = c.context := context_bumpN c _

@[simp] theorem context_start (c : Cursor σ) : c.start.2.context = c.context := context_flush c _

@[simp] theorem context_missing (c : Cursor σ) (kind : Kind) :
    (c.missing kind).context = c.context := context_flush c _

@[simp] theorem context_report (c : Cursor σ) (problem : Problem) (range : Range) :
    (c.report problem range).context = c.context := by
  unfold report
  dsimp only
  split <;> rfl

@[simp] theorem context_bangEscape (c : Cursor σ) : c.bangEscape.context = c.context := by
  unfold bangEscape
  split <;> simp

@[simp] theorem context_eatName (c : Cursor σ) : c.eatName.context = c.context :=
  context_bumpWhile c _

@[simp] theorem context_close (t : OpenTag) (c : Cursor σ) : (t.close c).context = c.context := by
  unfold OpenTag.close
  split <;> simp

@[simp] theorem context_closeAngle (c : Cursor σ) (name : List Char) (range : Range) :
    (c.closeAngle name range).2.context = c.context := by
  unfold closeAngle
  dsimp only
  split <;> simp

@[simp] theorem context_voidEndTag (c : Cursor σ) (name : List Char) :
    (c.voidEndTag name).context = c.context := by
  unfold voidEndTag
  dsimp only
  split <;> simp [acceptUntil]

/-! ## Implicit code -/

theorem context_ensureProgress (before : Nat) (c : Cursor σ) :
    (EmbeddedCode.ensureProgress before c).context = c.context := by
  unfold EmbeddedCode.ensureProgress
  split
  · rw [context_flush, context_bump]
  · rfl

theorem context_inlineComment (c : Cursor σ) : c.inlineComment.context = c.context := by
  unfold inlineComment
  split
  · have hbody := (Moves.bump c.start.2).trans
      ((Moves.bumpWhile _ (·.kind != .commentClose)).trans (.eat _ .commentClose))
    exact (context_complete _ _ _).trans (hbody.context.trans (context_flush c _))
  · rfl

theorem context_implicitExpression (c : Cursor σ) : c.implicitExpression.context = c.context := by
  unfold implicitExpression
  dsimp only
  split
  · have hbody := (Moves.bumpN c.start.2 (c.runLength (·.kind == .whitespace) 0 + 1)).trans
      (.expressionBody _)
    exact (context_complete _ _ _).trans (hbody.context.trans (context_start c))
  · rfl

theorem keepsOptions_implicit : (EmbeddedCode.implicit : EmbeddedCode σ).KeepsOptions where
  block c := congrArg Context.options
    ((context_ensureProgress _ _).trans (context_implicitExpression c))
  comment c := congrArg Context.options
    ((context_ensureProgress _ _).trans (context_inlineComment c))

/-! ## Scans -/

theorem options_endLine (c : Cursor σ) : c.endLine.2.context.options = c.context.options := by
  unfold endLine ephemeralLineEnd
  generalize (if c.at? .whitespace then 1 else 0) = blanks
  dsimp only
  split <;> simp

theorem options_scanStep (hk : code.KeepsOptions) (place : LinePlace) (c : Cursor σ) :
    (c.scanStep code place).2.context.options = c.context.options := by
  have ho := scanStep_outcome code place c
  generalize c.scanStep code place = r at ho ⊢
  cases ho with
  | lineEnding =>
    rw [options_endLine, context_flush, context_acceptRead]
  | newline | doubled | other => simp
  | code => rw [hk.block, context_beforeCode]
  | comment => rw [hk.comment, context_beforeComment]
  | commentLine => rw [options_endLine, hk.comment, context_beforeComment]

theorem options_skipUntil (hk : code.KeepsOptions) (stop : Cursor σ → Bool) (c : Cursor σ) :
    (c.skipUntil code stop).context.options = c.context.options := by
  have hscan (bound : Nat) (place : LinePlace) (c : Cursor σ) :
      (scanFrom code stop bound place c).context.options = c.context.options := by
    induction bound generalizing place c with
    | zero => rfl
    | succ bound ih =>
      unfold scanFrom
      split
      · rw [context_acceptRead]
      · exact (ih _ _).trans (options_scanStep hk place c)
  exact hscan _ _ c

theorem options_skipTo (hk : code.KeepsOptions) (kind : Kind) (c : Cursor σ) :
    (c.skipTo code kind).context.options = c.context.options := options_skipUntil hk _ c

theorem options_acceptThrough (hk : code.KeepsOptions) (first : Kind) (rest : List Kind)
    (c : Cursor σ) : (c.acceptThrough code first rest).2.context.options = c.context.options := by
  have hscan (bound : Nat) (c : Cursor σ) :
      (acceptThroughFrom code first rest bound c).2.context.options = c.context.options := by
    induction bound generalizing c with
    | zero => rfl
    | succ bound ih =>
      unfold acceptThroughFrom
      dsimp only
      split
      · exact options_skipTo hk first c
      · split
        · rw [context_bumpN, options_skipTo hk]
        · rw [ih, context_bump, options_skipTo hk]
  exact hscan _ c

/-! ## Tags -/

theorem options_commentBodyFrom (hk : code.KeepsOptions) (bound : Nat) (c : Cursor σ) :
    (commentBodyFrom code bound c).2.context.options = c.context.options := by
  induction bound generalizing c with
  | zero => rfl
  | succ bound ih =>
    unfold commentBodyFrom
    dsimp only
    split
    · exact options_skipTo hk _ c
    · split
      · rw [context_flush, context_bumpN, context_flush, options_skipTo hk]
      · rw [ih, context_bump, options_skipTo hk]

theorem options_specialTag (hk : code.KeepsOptions) (c : Cursor σ) :
    (c.specialTag code).2.context.options = c.context.options := by
  unfold specialTag
  split
  · unfold bangTag
    split
    · unfold htmlComment
      dsimp only
      rw [context_complete, options_commentBodyFrom hk, context_flush, context_bumpN, context_start]
    · dsimp only
      rw [context_flush]
      split
      · rw [options_acceptThrough hk, context_bumpN, context_bumpN]
      · rw [options_acceptThrough hk, context_bumpN]
  · unfold instruction
    dsimp only
    rw [context_flush, options_acceptThrough hk, context_bumpN]

theorem options_readAttribute (hk : code.KeepsOptions) (c : Cursor σ) :
    (c.readAttribute code).2.context.options = c.context.options := by
  have hvalue (c : Cursor σ) :
      (c.attributeValue code).2.context.options = c.context.options := by
    unfold attributeValue
    dsimp only
    split
    · rw [context_eat, context_complete, options_skipTo hk, context_start, context_bump]
    · rw [context_complete, options_skipUntil hk, context_start]
  unfold readAttribute
  dsimp only
  rw [context_complete]
  split
  · dsimp only
    rw [hvalue, context_bumpWhile, context_bumpN, context_bumpWhile, context_start]
  · rw [context_bumpWhile, context_start]

theorem options_attributes (hk : code.KeepsOptions) (c : Cursor σ) :
    (c.attributes code).2.context.options = c.context.options := by
  have hround {c d : Cursor σ} (h : AttributeRound code c d) :
      d.context.options = c.context.options := by
    cases h with
    | token => rw [context_bump]
    | block => rw [hk.block, context_flush]
    | comment => rw [hk.comment, context_flush]
    | named => exact options_readAttribute hk c
  have hall (bound : Nat) (c : Cursor σ) :
      (attributesFrom code bound c).2.context.options = c.context.options := by
    induction bound generalizing c with
    | zero => rfl
    | succ bound ih =>
      rcases attributesFrom_succ code bound c with hend | ⟨d, hd, hgo⟩
      · rw [hend, context_bumpWhile]
      · rw [hgo, ih, hround hd, context_bumpWhile]
  exact hall _ c

theorem options_scriptBody (hk : code.KeepsOptions) (name : List Char) (c : Cursor σ) :
    (c.scriptBody code name).context.options = c.context.options := by
  have hbody (bound : Nat) (c : Cursor σ) :
      (scriptBodyFrom code name bound c).context.options = c.context.options := by
    induction bound generalizing c with
    | zero => rfl
    | succ bound ih =>
      unfold scriptBodyFrom
      dsimp only
      split
      · exact options_skipTo hk _ c
      · split
        · rw [context_complete, context_closeAngle, options_skipTo hk, context_eatName,
            context_bumpN, context_start, options_skipTo hk]
        · rw [ih, context_bump, options_skipTo hk]
  exact hbody _ c

end Cursor

end TemplateMarkup
