import TemplateMarkup.Proofs.Planting
import TemplateMarkup.Proofs.TagOutcomes

/-! # Markup is planted in its place

Every part of the grammar below the walk over tags plants what it reads. Literal
text is flushed where a node may stand, and a node is completed in the place it
was started for. Only an attribute's value is counted besides, since an attribute
has one at most. -/

namespace TemplateMarkup

open TemplateMarkup.Tree

namespace Cursor

variable {σ : Type} {code : EmbeddedCode σ} {c d e : Cursor σ} {place : Kind}

/-! ## Scans -/

theorem Plants.ephemeralLineEnd (h : Plants place c d) (hplace : place.holdsNodes = true) :
    Plants place c d.ephemeralLineEnd.2 := by
  unfold Cursor.ephemeralLineEnd
  generalize (if d.at? .whitespace then 1 else 0) = blanks
  dsimp only
  split
  · exact (h.moves (.bumpN d (blanks + 1))).flush hplace rfl
  · exact h

theorem plants_scanStep (hc : code.Planting) (hplace : place.holdsNodes = true)
    (linePlace : LinePlace) (c : Cursor σ) : Plants place c (c.scanStep code linePlace).2 := by
  have hread : Plants place c c.acceptRead := (Plants.refl c).moves (.acceptRead c)
  have hcomment : Plants place c (code.comment (c.beforeComment linePlace)) := by
    refine Plants.trans ?_ (hc.comment _ hplace)
    have hflush := ((Plants.refl c).flush_literal hplace).moves (.acceptRead _)
    unfold beforeComment
    split
    · exact hflush.flush hplace rfl
    · exact hflush.flush hplace rfl
  have ho := scanStep_outcome code linePlace c
  generalize c.scanStep code linePlace = r at ho ⊢
  cases ho with
  | lineEnding =>
    have hflag : Plants place c { c with context.ephemeralLineEnding := false } := .same rfl rfl rfl
    exact ((hflag.moves (.acceptRead _)).flush_literal hplace).ephemeralLineEnd hplace
  | newline => exact (Plants.refl c).moves (.bump c)
  | doubled =>
    have hfirst : Plants place c ((c.acceptRead.flush .literal).bump.flush .ephemeral) :=
      ((hread.flush_literal hplace).moves (.bump _)).flush hplace rfl
    exact hfirst.moves (.bump _)
  | code =>
    refine Plants.trans ?_ (hc.block _ hplace)
    unfold beforeCode
    split
    · exact ((Plants.refl c).moves (.putBack c)).flush_literal hplace
    · exact hread.flush_literal hplace
  | comment => exact hcomment
  | commentLine => exact hcomment.ephemeralLineEnd hplace
  | other => exact hread.moves (.advance _)

theorem plants_scanFrom (hc : code.Planting) (hplace : place.holdsNodes = true)
    (stop : Cursor σ → Bool) (bound : Nat) (linePlace : LinePlace) (c : Cursor σ) :
    Plants place c (scanFrom code stop bound linePlace c) := by
  induction bound generalizing linePlace c with
  | zero => exact .fail c _
  | succ bound ih =>
    unfold scanFrom
    split
    · exact (Plants.refl c).moves (.acceptRead c)
    · exact (plants_scanStep hc hplace linePlace c).trans (ih _ _)

theorem Plants.skipUntil (h : Plants place c d) (hc : code.Planting)
    (hplace : place.holdsNodes = true) (stop : Cursor σ → Bool) :
    Plants place c (d.skipUntil code stop) := h.trans (plants_scanFrom hc hplace stop _ _ d)

theorem Plants.skipTo (h : Plants place c d) (hc : code.Planting)
    (hplace : place.holdsNodes = true) (kind : Kind) : Plants place c (d.skipTo code kind) :=
  h.skipUntil hc hplace _

theorem plants_acceptThroughFrom (hc : code.Planting) (hplace : place.holdsNodes = true)
    (first : Kind) (rest : List Kind) (bound : Nat) (c : Cursor σ) :
    Plants place c (acceptThroughFrom code first rest bound c).2 := by
  induction bound generalizing c with
  | zero => exact .fail c _
  | succ bound ih =>
    have hskip := (Plants.refl c).skipTo hc hplace first
    unfold acceptThroughFrom
    dsimp only
    split
    · exact hskip
    · split
      · exact hskip.moves (.bumpN _ _)
      · exact (hskip.moves (.bump _)).trans (ih _)

theorem Plants.acceptThrough (h : Plants place c d) (hc : code.Planting)
    (hplace : place.holdsNodes = true) (first : Kind) (rest : List Kind) :
    Plants place c (d.acceptThrough code first rest).2 :=
  h.trans (plants_acceptThroughFrom hc hplace first rest _ d)

/-! ## Comments, sections and instructions -/

theorem plants_commentBodyFrom (hc : code.Planting) (bound : Nat) (c : Cursor σ) :
    Plants .commentBlock c (commentBodyFrom code bound c).2 := by
  induction bound generalizing c with
  | zero => exact .fail c _
  | succ bound ih =>
    have hskip : Plants .commentBlock c _ := (Plants.refl c).skipTo hc rfl .doubleHyphen
    unfold commentBodyFrom
    dsimp only
    split
    · exact hskip
    · split
      · exact ((hskip.flush_literal rfl).moves (.bumpN _ _)).flush_literal rfl
      · exact (hskip.moves (.bump _)).trans (ih _)

theorem plants_htmlComment (hc : code.Planting) (hplace : place.mayHold .commentBlock = true)
    (c : Cursor σ) : Plants place c (c.htmlComment code).2 := by
  have hopen : Plants .commentBlock c.start.2 ((c.start.2.bumpN 3).flush .literal) :=
    ((Plants.refl _).moves (.bumpN _ 3)).flush_literal rfl
  unfold htmlComment
  dsimp only
  exact (hopen.trans (plants_commentBodyFrom hc _ _)).node hplace rfl (by decide)

theorem plants_specialTag (hc : code.Planting) (hplace : place.mayHold .commentBlock = true)
    (c : Cursor σ) : Plants place c (c.specialTag code).2 := by
  have hholds := Kind.holdsNodes_of_mayHold hplace
  have hopen : Plants place c (c.bumpN 2) := (Plants.refl c).moves (.bumpN c 2)
  unfold specialTag
  split
  · unfold bangTag
    dsimp only
    split
    · exact plants_htmlComment hc hplace c
    · refine Plants.flush_literal ?_ hholds
      split
      · exact (hopen.moves (.bumpN _ 3)).acceptThrough hc hholds _ _
      · exact hopen.acceptThrough hc hholds _ _
  · exact (hopen.acceptThrough hc hholds _ _).flush_literal hholds

/-! ## Attributes -/

/-- What may stand in an attribute is added, at most one value among it. -/
def PlantsValue (c d : Cursor σ) : Prop :=
  ∀ ⦃f : List Tree⦄ ⦃fs : List (List Tree)⦄, Shows c (f :: fs) → ∃ ts, Shows d ((f ++ ts) :: fs) ∧
    (∀ t ∈ ts, Placed .attributeBlock t) ∧ ts.countP isValue ≤ 1

theorem countP_flushTrees_literal (ts : List Token) :
    (flushTrees .literal ts).countP isValue = 0 := by
  unfold flushTrees
  split <;> rfl

theorem Plants.value (h : Plants .attributeValue c.start.2 d) :
    PlantsValue c (d.complete c.start.1 .attributeValue) := by
  intro f fs hs
  obtain ⟨inner, hinner, hplaced⟩ := h hs.start.1
  rw [List.nil_append] at hinner
  have hfill : ∀ t ∈ inner ++ flushTrees .literal d.pending, Placed .attributeValue t := by
    intro t ht
    rcases List.mem_append.mp ht with ht | ht
    · exact hplaced t ht
    · exact placed_flushTrees rfl rfl hinner.pending_sane t ht
  have hnone := countP_of_placed hfill (by decide)
  refine ⟨_, hs.node hinner .attributeValue, ?_, ?_⟩
  · exact Plants.placed_node hs (.node rfl rfl hfill (by omega))
  · rw [List.countP_append, countP_flushTrees_literal, Nat.zero_add]
    exact List.countP_le_length

theorem PlantsValue.between (h : PlantsValue d e) (hc : Moves c d) {g : Cursor σ} (hg : Moves e g) :
    PlantsValue c g := by
  intro f fs hs
  obtain ⟨ts, hts, hplaced⟩ := h (hc.shows hs)
  exact ⟨ts, hg.shows hts, hplaced⟩

theorem plantsValue_attributeValue (hc : code.Planting) (c : Cursor σ) :
    PlantsValue c (c.attributeValue code).2 := by
  unfold attributeValue
  dsimp only
  by_cases hquoted : c.current = .doubleQuote ∨ c.current = .singleQuote
  · simp only [if_pos hquoted]
    exact ((Plants.refl c.bump.start.2).skipTo hc rfl c.current).value.between (.bump c) (.eat _ _)
  · simp only [if_neg hquoted]
    exact ((Plants.refl c.start.2).skipUntil hc rfl atBareValueEnd).value

theorem PlantsValue.attribute (h : PlantsValue c.start.2 d) :
    Plants .tagBlock c (d.complete c.start.1 .attributeBlock) := by
  intro f fs hs
  obtain ⟨inner, hinner, hplaced, hvalues⟩ := h hs.start.1
  rw [List.nil_append] at hinner
  have hfill : ∀ t ∈ inner ++ flushTrees .literal d.pending, Placed .attributeBlock t := by
    intro t ht
    rcases List.mem_append.mp ht with ht | ht
    · exact hplaced t ht
    · exact placed_flushTrees rfl rfl hinner.pending_sane t ht
  refine ⟨_, hs.node hinner .attributeBlock, Plants.placed_node hs (.node rfl rfl hfill ?_)⟩
  rw [List.countP_append, countP_flushTrees_literal]
  exact hvalues

theorem plants_readAttribute (hc : code.Planting) (c : Cursor σ) :
    Plants .tagBlock c (c.readAttribute code).2 := by
  have hnone {d : Cursor σ} (h : Moves c.start.2 d) : PlantsValue c.start.2 d := by
    intro f fs hs
    refine ⟨[], ?_, fun _ ht => absurd ht List.not_mem_nil, Nat.zero_le _⟩
    rw [List.append_nil]
    exact h.shows hs
  have hsome {d : Cursor σ} (h : Moves c.start.2 d) :
      PlantsValue c.start.2 (d.attributeValue code).2 :=
    fun f fs hs => plantsValue_attributeValue hc d (h.shows hs)
  have hname := Moves.bumpWhile c.start.2 (!·.kind.endsAttributeName)
  unfold readAttribute
  dsimp only
  split
  · dsimp only
    exact (hsome ((hname.trans (.bumpN _ _)).trans (.bumpWhile _ _))).attribute
  · exact (hnone hname).attribute

theorem plants_attributes (hc : code.Planting) (c : Cursor σ) :
    Plants .tagBlock c (c.attributes code).2 := by
  unfold attributes
  generalize code.budget c = bound
  induction bound generalizing c with
  | zero => exact .fail c _
  | succ bound ih =>
    have hspace : Plants .tagBlock c (c.bumpWhile (·.kind.isTrivia)) :=
      (Plants.refl c).moves (.bumpWhile c _)
    rcases attributesFrom_succ code bound c with hend | ⟨d, hround, hgo⟩
    · rw [hend]
      exact hspace
    · rw [hgo]
      refine (hspace.trans ?_).trans (ih d)
      cases hround with
      | token => exact (Plants.refl _).moves (.bump _)
      | block => exact ((Plants.refl _).flush_literal rfl).trans (hc.block _ rfl)
      | comment => exact ((Plants.refl _).flush_literal rfl).trans (hc.comment _ rfl)
      | named => exact plants_readAttribute hc _

/-! ## Tags -/

theorem Plants.bangEscape (h : Plants place c d) (hplace : place.holdsNodes = true) :
    Plants place c d.bangEscape := by
  unfold Cursor.bangEscape
  split
  · exact ((h.flush_literal hplace).moves (.bump _)).flush hplace rfl
  · exact h

theorem Plants.closeAngle (h : Plants .tagBlock c d) (name : List Char) (range : Range) :
    Plants .tagBlock c (d.closeAngle name range).2 := by
  have heat := h.moves (.eat d .closeAngle)
  unfold Cursor.closeAngle
  dsimp only
  split
  · exact heat
  · exact (heat.report _ _).missing

theorem plants_endTagBlock (hplace : place.mayHold .tagBlock = true) (name : List Char)
    (c : Cursor σ) : Plants place c (c.endTagBlock name).2 := by
  have hopen : Plants .tagBlock c.start.2 (c.start.2.bumpN 2).bangEscape :=
    ((Plants.refl _).moves (.bumpN _ 2)).bangEscape rfl
  have hname := (hopen.moves (.eatName _)).moves (.acceptUntil _ [.closeAngle, .openAngle])
  unfold endTagBlock
  dsimp only
  exact (hname.closeAngle name _).node hplace rfl (by decide)

theorem plants_textEndTag (name : List Char) (c : Cursor σ) :
    Plants .markupBlock c (c.textEndTag name) := by
  have hopen : Plants .markupBlock c ((c.bumpN 2).eatName.eat .closeAngle).2 :=
    (((Plants.refl c).moves (.bumpN c 2)).moves (.eatName _)).moves (.eat _ _)
  unfold textEndTag
  dsimp only
  split
  · exact hopen.flush rfl rfl
  · exact ((hopen.report _ _).moves (.recoverTextTag _)).flush rfl rfl

theorem Plants.textTag {range : Range} {e : Cursor σ} (h : Plants .markupBlock c d)
    (hends : TextTagEnds range d e) : Plants .markupBlock c (e.flush .markupTransition) := by
  refine Plants.flush ?_ rfl rfl
  cases hends with
  | closed => exact h.moves (.bumpN _ _)
  | reported => exact (h.report _ _).moves (.recoverTextTag _)

theorem Plants.voidEndTag (h : Plants .tagBlock c d) (name : List Char) :
    Plants .tagBlock c (d.voidEndTag name) := by
  unfold Cursor.voidEndTag
  dsimp only
  split
  · have hname := (h.moves (.bumpN d (d.spacing 0 + 2))).moves (.eatName _)
    have hskip := hname.moves (.acceptUntil _ [.closeAngle, .openAngle])
    exact (hskip.moves (.eat _ .closeAngle)).flush_literal rfl
  · exact h

theorem plants_scriptBodyFrom (hc : code.Planting) (name : List Char) (bound : Nat) (c : Cursor σ) :
    Plants .tagBlock c (scriptBodyFrom code name bound c) := by
  induction bound generalizing c with
  | zero => exact .fail c _
  | succ bound ih =>
    have hskip : Plants .tagBlock c (c.skipTo code .openAngle) := (Plants.refl c).skipTo hc rfl _
    unfold scriptBodyFrom
    dsimp only
    split
    · exact hskip
    · split
      · have hname : Plants .tagBlock (c.skipTo code .openAngle).start.2
            (((c.skipTo code .openAngle).start.2.bumpN 2).eatName.skipTo code .closeAngle) :=
          (((Plants.refl _).moves (.bumpN _ 2)).moves (.eatName _)).skipTo hc rfl _
        exact hskip.trans ((hname.closeAngle name _).node rfl rfl (by decide))
      · exact (hskip.moves (.bump _)).trans (ih _)

theorem Plants.scriptBody (h : Plants .tagBlock c d) (hc : code.Planting) (name : List Char) :
    Plants .tagBlock c (d.scriptBody code name) := h.trans (plants_scriptBodyFrom hc name _ d)

end Cursor

end TemplateMarkup
