import TemplateMarkup.Code.Expression
import TemplateMarkup.Cursor.Lemmas
import TemplateMarkup.Parse
import TemplateMarkup.Proofs.TagOutcomes

/-! # The markup touches the host only through the code parser

Reading markup changes the state that the embedded-code parser keeps only where
it hands over to that parser. So a relation that holds between that state before
and after each call holds before and after everything that reads markup, for any
cursor and with no regard to faults. -/

namespace TemplateMarkup

/-- A preorder that holds between the host's state before and after each call. -/
structure EmbeddedCode.Respects {σ : Type} (code : EmbeddedCode σ) (R : σ → σ → Prop) : Prop where
  refl : ∀ s, R s s
  trans : ∀ {s t u}, R s t → R t u → R s u
  parseBlock : ∀ c, R c.host (code.parseBlock c).host
  parseComment : ∀ c, R c.host (code.parseComment c).host

namespace Cursor

variable {σ : Type}

/-! ## Reading without code -/

@[simp] theorem host_inlineComment (c : Cursor σ) : c.inlineComment.host = c.host := by
  unfold inlineComment
  split
  · dsimp only
    simp
  · rfl

theorem acceptKeeps_host (host : σ) : AcceptKeeps fun c : Cursor σ => c.host = host where
  bump h := by simpa using h
  front count h := by simpa using h

@[simp] theorem host_expressionBody (c : Cursor σ) : c.expressionBody.host = c.host :=
  (acceptKeeps_host c.host).expressionBody (fun _ => id) rfl

@[simp] theorem host_implicitExpression (c : Cursor σ) : c.implicitExpression.host = c.host := by
  unfold implicitExpression
  dsimp only
  split
  · simp [start]
  · rfl

@[simp] theorem host_ephemeralLineEnd (c : Cursor σ) : c.ephemeralLineEnd.2.host = c.host := by
  unfold ephemeralLineEnd
  generalize (if c.at? .whitespace then 1 else 0) = blanks
  dsimp only
  split
  · simp
  · rfl

@[simp] theorem host_endLine (c : Cursor σ) : c.endLine.2.host = c.host :=
  host_ephemeralLineEnd c

@[simp] theorem host_acceptUntil (c : Cursor σ) (kinds : List Kind) :
    (c.acceptUntil kinds).host = c.host := host_bumpWhile c _

@[simp] theorem host_bangEscape (c : Cursor σ) : c.bangEscape.host = c.host := by
  unfold bangEscape
  split <;> simp

@[simp] theorem host_eatName (c : Cursor σ) : c.eatName.host = c.host := host_bumpWhile c _

@[simp] theorem host_closeAngle (c : Cursor σ) (name : List Char) (range : Range) :
    (c.closeAngle name range).2.host = c.host := by
  unfold closeAngle
  dsimp only
  split <;> simp

@[simp] theorem host_recoverTextTag (c : Cursor σ) : c.recoverTextTag.host = c.host := by
  simp [recoverTextTag]

@[simp] theorem host_endTagBlock (c : Cursor σ) (name : List Char) :
    (c.endTagBlock name).2.host = c.host := by
  simp [endTagBlock]

@[simp] theorem host_textEndTag (c : Cursor σ) (name : List Char) :
    (c.textEndTag name).host = c.host := by
  unfold textEndTag
  dsimp only
  split <;> simp

@[simp] theorem host_voidEndTag (c : Cursor σ) (name : List Char) :
    (c.voidEndTag name).host = c.host := by
  unfold voidEndTag
  dsimp only
  split <;> simp

@[simp] theorem host_textStartTag (c : Cursor σ) (tags : OpenTags) (name : List Char) :
    (c.textStartTag tags name).cursor.host = c.host := by
  unfold textStartTag
  dsimp only
  split <;> split <;> simp

@[simp] theorem host_close (t : OpenTag) (c : Cursor σ) : (t.close c).host = c.host := by
  unfold OpenTag.close
  split <;> simp

@[simp] theorem host_closeUnended (t : OpenTag) (c : Cursor σ) :
    (t.closeUnended c).host = c.host := by simp [OpenTag.closeUnended]

@[simp] theorem host_removeMatching (name : List Char) (endTag : Nat) (tags : OpenTags)
    (c : Cursor σ) : (OpenTags.removeMatching name endTag tags c).2.2.host = c.host := by
  induction tags generalizing c with
  | nil => simp [OpenTags.removeMatching]
  | cons t rest ih =>
    unfold OpenTags.removeMatching
    split
    · rfl
    · dsimp only
      split
      · simp
      · rw [ih, host_closeUnended]

theorem host_foldl_close (tags : List OpenTag) (c : Cursor σ) :
    (tags.foldl (fun c t => t.close c) c).host = c.host := by
  induction tags generalizing c with
  | nil => rfl
  | cons t rest ih => rw [List.foldl_cons, ih, host_close]

@[simp] theorem host_drain (tags : OpenTags) (c : Cursor σ) :
    (tags.drain c).2.host = c.host := by
  cases tags with
  | nil => rfl
  | cons t rest => rw [OpenTags.drain, host_foldl_close, host_closeUnended]

@[simp] theorem host_endTag (c : Cursor σ) (tags : OpenTags) :
    (c.endTag tags).cursor.host = c.host := by
  have hremoved := host_removeMatching (c.tagNameAt 2) c.offset tags c
  have hends := endTag_ends tags c
  generalize c.endTag tags = w at hends ⊢
  cases hends with
  | bare => simp [start]
  | unmatched _ hr | text _ hr | element _ hr =>
    rw [hr] at hremoved
    simpa using hremoved

@[simp] theorem host_loneAngle (c : Cursor σ) (tags : OpenTags) :
    (c.loneAngle tags).cursor.host = c.host := by
  unfold loneAngle
  dsimp only
  split <;> simp [start]

@[simp] theorem host_endTags (w : TagWalk σ) : (endTags w).host = w.cursor.host := by
  unfold endTags
  dsimp only
  split <;> split <;> simp

@[simp] theorem host_doubledTransition (c : Cursor σ) : c.doubledTransition.host = c.host := by
  unfold doubledTransition
  dsimp only
  split <;> simp

@[simp] theorem host_nestingText (c : Cursor σ) (opener closer : List Char) (depth : Nat) :
    (c.nestingText opener closer depth).2.host = c.host := by
  unfold nestingText
  split
  · simp
  · split
    · simp
    · split
      · dsimp only
        split <;> simp
      · simp
  · simp

@[simp] theorem host_leaveRest (c : Cursor σ) : c.leaveRest.host = c.host := by
  unfold leaveRest
  dsimp only
  split
  · simp
  · simp [start]

end Cursor

/-! ## Reading with code -/

namespace EmbeddedCode.Respects

open Cursor

variable {σ : Type} {code : EmbeddedCode σ} {R : σ → σ → Prop}

theorem of_host_eq (hr : code.Respects R) {c d : Cursor σ} (h : d.host = c.host) :
    R c.host d.host := by
  rw [h]
  exact hr.refl _

theorem host_ensureProgress (before : Nat) (c : Cursor σ) :
    (EmbeddedCode.ensureProgress before c).host = c.host := by
  unfold EmbeddedCode.ensureProgress
  split <;> simp

theorem block (hr : code.Respects R) (c : Cursor σ) : R c.host (code.block c).host := by
  rw [EmbeddedCode.block, host_ensureProgress]
  exact hr.parseBlock c

theorem comment (hr : code.Respects R) (c : Cursor σ) : R c.host (code.comment c).host := by
  rw [EmbeddedCode.comment, host_ensureProgress]
  exact hr.parseComment c

theorem scanStep (hr : code.Respects R) (place : LinePlace) (c : Cursor σ) :
    R c.host (c.scanStep code place).2.host := by
  unfold Cursor.scanStep
  split
  · exact hr.of_host_eq (by simp)
  · split
    · exact hr.of_host_eq (by simp)
    · split
      · exact hr.of_host_eq (by simp)
      · dsimp only
        have hb := hr.block ((if place = .indent ∧ (!c.context.options.designTime) = true then
          c.putBack else c.acceptRead).flush .literal)
        have hh : ((if place = .indent ∧ (!c.context.options.designTime) = true then
          c.putBack else c.acceptRead).flush .literal).host = c.host := by split <;> simp
        rwa [hh] at hb
    · dsimp only
      have hc := hr.comment (((c.flush .literal).acceptRead).flush
        (if place = .indent then .ephemeral else .literal))
      rw [host_flush, host_acceptRead, host_flush] at hc
      split
      · rwa [host_endLine]
      · exact hc
    · exact hr.of_host_eq (by simp)

theorem scanFrom (hr : code.Respects R) (stop : Cursor σ → Bool) (bound : Nat)
    (place : LinePlace) (c : Cursor σ) : R c.host (Cursor.scanFrom code stop bound place c).host := by
  induction bound generalizing place c with
  | zero => exact hr.refl _
  | succ bound ih =>
    unfold Cursor.scanFrom
    split
    · exact hr.of_host_eq (by simp)
    · exact hr.trans (hr.scanStep place c) (ih _ _)

theorem skipUntil (hr : code.Respects R) (stop : Cursor σ → Bool) (c : Cursor σ) :
    R c.host (c.skipUntil code stop).host := hr.scanFrom stop _ _ c

theorem skipTo (hr : code.Respects R) (kind : Kind) (c : Cursor σ) :
    R c.host (c.skipTo code kind).host := hr.skipUntil _ c

theorem acceptThroughFrom (hr : code.Respects R) (first : Kind) (rest : List Kind) (bound : Nat)
    (c : Cursor σ) : R c.host (Cursor.acceptThroughFrom code first rest bound c).2.host := by
  induction bound generalizing c with
  | zero => exact hr.refl _
  | succ bound ih =>
    unfold Cursor.acceptThroughFrom
    have hs := hr.skipTo first c
    dsimp only
    split
    · exact hs
    · split
      · rwa [host_bumpN]
      · have hi := ih (c.skipTo code first).bump
        rw [host_bump] at hi
        exact hr.trans hs hi

theorem acceptThrough (hr : code.Respects R) (first : Kind) (rest : List Kind) (c : Cursor σ) :
    R c.host (c.acceptThrough code first rest).2.host := hr.acceptThroughFrom first rest _ c

theorem attributeValue (hr : code.Respects R) (c : Cursor σ) :
    R c.host (c.attributeValue code).2.host := by
  unfold Cursor.attributeValue
  dsimp only
  split
  · have hs := hr.skipTo c.current c.bump.start.2
    simpa using hs
  · have hs := hr.skipUntil atBareValueEnd c.start.2
    simpa using hs

theorem readAttribute (hr : code.Respects R) (c : Cursor σ) :
    R c.host (c.readAttribute code).2.host := by
  unfold Cursor.readAttribute
  dsimp only
  split
  · rw [host_complete]
    exact hr.trans (hr.of_host_eq (by simp)) (hr.attributeValue _)
  · exact hr.of_host_eq (by simp)

theorem attributesFrom (hr : code.Respects R) (bound : Nat) (c : Cursor σ) :
    R c.host (Cursor.attributesFrom code bound c).2.host := by
  induction bound generalizing c with
  | zero => exact hr.refl _
  | succ bound ih =>
    unfold Cursor.attributesFrom
    dsimp only
    have hw : (c.bumpWhile (·.kind.isTrivia)).host = c.host := host_bumpWhile c _
    generalize c.bumpWhile (·.kind.isTrivia) = d at hw ⊢
    rw [← hw]
    split
    · exact hr.refl _
    · exact hr.refl _
    · exact hr.refl _
    · split
      · exact hr.refl _
      · simpa using ih d.bump
    · exact hr.trans (by simpa using hr.block (d.flush .literal)) (ih _)
    · exact hr.trans (by simpa using hr.comment (d.flush .literal)) (ih _)
    · simpa using ih d.bump
    · simpa using ih d.bump
    · simpa using ih d.bump
    · exact hr.trans (hr.readAttribute d) (ih _)

theorem attributes (hr : code.Respects R) (c : Cursor σ) :
    R c.host (c.attributes code).2.host := hr.attributesFrom _ c

theorem commentBodyFrom (hr : code.Respects R) (bound : Nat) (c : Cursor σ) :
    R c.host (Cursor.commentBodyFrom code bound c).2.host := by
  induction bound generalizing c with
  | zero => exact hr.refl _
  | succ bound ih =>
    unfold Cursor.commentBodyFrom
    have hs := hr.skipTo .doubleHyphen c
    dsimp only
    split
    · exact hs
    · split
      · simpa using hs
      · have hi := ih (c.skipTo code .doubleHyphen).bump
        rw [host_bump] at hi
        exact hr.trans hs hi

theorem htmlComment (hr : code.Respects R) (c : Cursor σ) :
    R c.host (c.htmlComment code).2.host := by
  unfold Cursor.htmlComment
  dsimp only
  rw [host_complete]
  exact hr.trans (hr.of_host_eq (by simp)) (hr.commentBodyFrom _ _)

theorem bangTag (hr : code.Respects R) (c : Cursor σ) : R c.host (c.bangTag code).2.host := by
  unfold Cursor.bangTag
  split
  · exact hr.htmlComment c
  · dsimp only
    rw [host_flush]
    split
    · exact hr.trans (hr.of_host_eq (by simp)) (hr.acceptThrough _ _ _)
    · exact hr.trans (hr.of_host_eq (by simp)) (hr.acceptThrough _ _ _)

theorem instruction (hr : code.Respects R) (c : Cursor σ) :
    R c.host (c.instruction code).2.host := by
  unfold Cursor.instruction
  dsimp only
  rw [host_flush]
  exact hr.trans (hr.of_host_eq (by simp)) (hr.acceptThrough _ _ _)

theorem specialTag (hr : code.Respects R) (c : Cursor σ) :
    R c.host (c.specialTag code).2.host := by
  unfold Cursor.specialTag
  split
  · exact hr.bangTag c
  · exact hr.instruction c

theorem scriptBodyFrom (hr : code.Respects R) (name : List Char) (bound : Nat) (c : Cursor σ) :
    R c.host (Cursor.scriptBodyFrom code name bound c).host := by
  induction bound generalizing c with
  | zero => exact hr.refl _
  | succ bound ih =>
    unfold Cursor.scriptBodyFrom
    have hs := hr.skipTo .openAngle c
    dsimp only
    split
    · exact hs
    · split
      · rw [host_complete, host_closeAngle]
        exact hr.trans hs (hr.trans (hr.of_host_eq (by simp)) (hr.skipTo _ _))
      · have hi := ih (c.skipTo code .openAngle).bump
        rw [host_bump] at hi
        exact hr.trans hs hi

theorem scriptBody (hr : code.Respects R) (name : List Char) (c : Cursor σ) :
    R c.host (c.scriptBody code name).host := hr.scriptBodyFrom name _ c

theorem restOfStartTag (hr : code.Respects R) (tags : OpenTags) (m : Marker) (name : List Char)
    (start : Nat) (c : Cursor σ) :
    R c.host (c.restOfStartTag code tags m name start).cursor.host := by
  have ha := hr.attributes c
  have hends := restOfStartTag_ends code tags m name start c
  generalize c.restOfStartTag code tags m name start = w at hends ⊢
  cases hends with
  | cutOff => simpa using ha
  | unclosed => simpa [throughHead] using ha
  | selfClosing | void | opened => simpa [behindHead, throughHead] using ha
  | script =>
    rw [host_complete]
    exact hr.trans ha (hr.trans (hr.of_host_eq (by simp [behindHead, throughHead]))
      (hr.scriptBody _ _))

theorem startTag (hr : code.Respects R) (tags : OpenTags) (c : Cursor σ) :
    R c.host (c.startTag code tags).cursor.host := by
  unfold Cursor.startTag
  dsimp only
  split
  · exact hr.of_host_eq (by simp)
  · exact hr.trans (hr.of_host_eq (by simp)) (hr.restOfStartTag _ _ _ _ _)

theorem tag (hr : code.Respects R) (tags : OpenTags) (c : Cursor σ) :
    R c.host (c.tag code tags).cursor.host := by
  unfold Cursor.tag
  split
  · exact hr.of_host_eq (by simp)
  · split
    · exact hr.specialTag c
    · split
      · exact hr.of_host_eq (by simp)
      · exact hr.startTag tags c

theorem tagsFrom (hr : code.Respects R) (bound : Nat) (w : TagWalk σ) :
    R w.cursor.host (Cursor.tagsFrom code bound w).cursor.host := by
  induction bound generalizing w with
  | zero => exact hr.refl _
  | succ bound ih =>
    unfold Cursor.tagsFrom
    have hs := hr.skipTo .openAngle w.cursor
    rw [← host_flush (w.cursor.skipTo code .openAngle) .literal] at hs
    dsimp only
    split
    · exact hs
    · split
      · exact hr.trans hs (hr.tag _ _)
      · exact hr.trans hs (hr.trans (hr.tag _ _) (ih _))

theorem tagBlock (hr : code.Respects R) (c : Cursor σ) : R c.host (c.tagBlock code).host := by
  unfold Cursor.tagBlock
  rw [host_endTags]
  exact hr.tagsFrom _ ⟨c, [], false⟩

theorem singleLine (hr : code.Respects R) (c : Cursor σ) : R c.host (c.singleLine code).host := by
  unfold Cursor.singleLine
  dsimp only
  rw [host_flush]
  dsimp only
  rw [host_eat]
  exact hr.skipTo .newline { c with context.whitespaceSignificant := true }

theorem afterTransition (hr : code.Respects R) (c : Cursor σ) :
    R c.host (c.afterTransition code).host := by
  unfold Cursor.afterTransition
  split
  · exact hr.trans (hr.of_host_eq (by simp)) (hr.singleLine _)
  · exact hr.tagBlock c
  · exact hr.refl _

theorem blockContent (hr : code.Respects R) (c : Cursor σ) :
    R c.host (c.blockContent code).host := by
  unfold Cursor.blockContent
  split
  · exact hr.tagBlock c
  · exact hr.trans (hr.of_host_eq (by simp)) (hr.afterTransition _)
  · exact hr.refl _
  · exact hr.of_host_eq (by simp)

theorem markupBlock (hr : code.Respects R) (c : Cursor σ) : R c.host (c.block code).host := by
  unfold Cursor.block
  dsimp only
  rw [host_complete]
  exact hr.trans (hr.of_host_eq (by simp)) (hr.blockContent _)

theorem looseTag (hr : code.Respects R) (c : Cursor σ) : R c.host (c.looseTag code).host := by
  unfold Cursor.looseTag
  split
  · exact hr.specialTag c
  · dsimp only
    split
    · exact hr.of_host_eq (by simp)
    · rw [host_complete]
      have ha := hr.attributes ((c.start.2.bump.eat .slash).2.bangEscape.eatName)
      rw [host_eatName, host_bangEscape, host_eat, host_bump, host_start] at ha
      split
      · split
        · exact hr.trans ha (hr.trans (hr.of_host_eq (by simp)) (hr.scriptBody _ _))
        · simpa using ha
      · simpa using ha

theorem nestingFrom (hr : code.Respects R) (opener closer : List Char) (bound depth : Nat)
    (c : Cursor σ) : R c.host (Cursor.nestingFrom code opener closer bound depth c).host := by
  induction bound generalizing depth c with
  | zero => exact hr.refl _
  | succ bound ih =>
    unfold Cursor.nestingFrom
    have hs := hr.skipUntil (fun c => c.at? .text || c.at? .openAngle) c
    dsimp only
    generalize c.skipUntil code (fun c => c.at? .text || c.at? .openAngle) = d at hs ⊢
    split
    · exact hs
    · split
      · exact hr.trans hs (hr.trans (by simpa using hr.looseTag (d.flush .literal)) (ih _ _))
      · split
        · simpa using hs
        · have hi := ih (d.nestingText opener closer depth).1 (d.nestingText opener closer depth).2
          rw [host_nestingText] at hi
          exact hr.trans hs hi

theorem nestedBlock (hr : code.Respects R) (nesting : Nesting) (c : Cursor σ) :
    R c.host (c.nestedBlock code nesting).host := by
  unfold Cursor.nestedBlock Cursor.nestingContent
  dsimp only
  rw [host_complete, host_flush]
  exact hr.trans (hr.of_host_eq (by simp)) (hr.nestingFrom _ _ _ _ _)

end EmbeddedCode.Respects

end TemplateMarkup
