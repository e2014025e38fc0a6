import TemplateMarkup.Proofs.Attributes
import TemplateMarkup.Proofs.RequestScans
import TemplateMarkup.Proofs.TagOutcomes

/-! # Requests in tags, comments and sections

Every part of the grammar below the walk over tags keeps what is known between two
scans. Among the attributes of a tag the code parser is called without a scan, so
a request made there is left over. -/

namespace TemplateMarkup

open TemplateMarkup.Tree Region

namespace Cursor

variable {σ : Type} {code : EmbeddedCode σ} {c d e : Cursor σ} {kind : Kind} {site : Site}
  {rs : List Region}

/-! ## Comments, sections and instructions -/

theorem answers_acceptThroughFrom (hcode : code.MakesNodes) {first : Kind}
    (hfirst : first.endsScan = true) (rest : List Kind) (bound : Nat) (c : Cursor σ) :
    Answers c (acceptThroughFrom code first rest bound c).2 := by
  induction bound generalizing c with
  | zero => exact (Answers.refl c).shifts (.fail c _)
  | succ bound ih =>
    have hskip := (Answers.refl c).skipTo hcode hfirst
    unfold acceptThroughFrom
    dsimp only
    split
    · exact hskip
    · split
      · exact hskip.shifts (.bumpN _ _)
      · exact (hskip.shifts (.bump _)).trans (ih _)

theorem Answers.acceptThrough (h : Answers c d) (hcode : code.MakesNodes) {first : Kind}
    (hfirst : first.endsScan = true) (rest : List Kind) :
    Answers c (d.acceptThrough code first rest).2 :=
  h.trans (answers_acceptThroughFrom hcode hfirst rest _ d)

theorem answers_commentBodyFrom (hcode : code.MakesNodes) (bound : Nat) (c : Cursor σ) :
    Answers c (commentBodyFrom code bound c).2 := by
  induction bound generalizing c with
  | zero => exact (Answers.refl c).shifts (.fail c _)
  | succ bound ih =>
    have hskip : Answers c (c.skipTo code .doubleHyphen) := (Answers.refl c).skipTo hcode rfl
    unfold commentBodyFrom
    dsimp only
    split
    · exact hskip
    · split
      · exact (hskip.flush_literal.shifts (.bumpN _ _)).flush_literal
      · exact (hskip.shifts (.bump _)).trans (ih _)

theorem answers_specialTag (hcode : code.MakesNodes) (c : Cursor σ) :
    Answers c (c.specialTag code).2 := by
  have hopen : Answers c (c.bumpN 2) := (Answers.refl c).shifts (.bumpN c 2)
  have hcomment : Answers c (c.htmlComment code).2 := by
    have hbegin : Answers c.start.2 ((c.start.2.bumpN 3).flush .literal) :=
      ((Answers.refl _).shifts (.bumpN _ 3)).flush_literal
    unfold htmlComment
    dsimp only
    exact .node (hbegin.trans (answers_commentBodyFrom hcode _ _)) rfl (by decide) fun _ h => h
  unfold specialTag
  split
  · unfold bangTag
    dsimp only
    split
    · exact hcomment
    · refine Answers.flush_literal ?_
      split
      · exact (hopen.shifts (.bumpN _ 3)).acceptThrough hcode rfl _
      · exact hopen.acceptThrough hcode rfl _
  · exact (hopen.acceptThrough hcode rfl _).flush_literal

/-! ## The value of an attribute -/

/-- A request stays open in a value only if nothing is accepted behind its code. -/
theorem Scans.complete (h : Scans c .value rs) (hheld : c.held = []) (hpending : c.pending = [])
    (hsite : site ≠ .value) (m : Marker) : Stands (c.complete m kind) site rs where
  site_ne := hsite
  held := (held_complete c m kind).trans hheld
  answered := h.answered
  due hasked := by
    rw [context_complete] at hasked
    obtain ⟨-, hfresh | ⟨hdue, -⟩⟩ := h.asked hasked
    · cases hfresh with
      | intro hcode hvalue =>
        refine .direct hcode fun hcontent => ?_
        rw [hvalue] at hcontent
        cases hcontent
    · exact hdue.shifts (by simp [coming, unflushed, hpending])

theorem Answers.value {stop : Cursor σ → Bool} (h : Answers c d) (hcode : code.MakesNodes) :
    Answers c ((d.start.2.skipUntil code stop).complete d.start.1 .attributeValue) := by
  have hscan := (carries_skipUntil hcode stop d.start.2).within (K := (· = .value))
    fun _ t hsite => hsite ▸ Site.behind_value t
  have hopen : Carries (Stands d)
      (fun site rs => site ≠ .value ∧ Site.inside .attributeValue = .value ∧
        Scans d.start.2 (.inside .attributeValue) rs) d (d.flush .literal) := by
    refine (refl d).flush_literal.mono (fun _ _ hd => hd) fun site rs hd => ⟨hd.site_ne, rfl, ?_⟩
    exact ⟨hd.answered, fun hasked => ⟨hd.held, .inr ⟨(hd.due hasked).shifts rfl, fun _ =>
      pending_flush d _⟩⟩⟩
  have hheld (hfault : (d.start.2.skipUntil code stop).fault = none) :
      (d.start.2.skipUntil code stop).held = [] := held_scanFrom hfault
  have hend := hscan.ends fun hfault _ _ he => And.intro (hheld hfault) he
  refine h.trans (Carries.node hend rfl hopen ?_)
  generalize d.start.2.skipUntil code stop = e
  refine .flush rfl (fun hp site rs he site' hsite => ?_) fun hp site rs he site' hsite => ?_
  · obtain ⟨hheld, rfl, he⟩ := he
    exact he.complete hheld hp hsite _
  · obtain ⟨hheld, rfl, he⟩ := he
    refine ⟨hsite, (held_complete e _ _).trans hheld, he.answered.rendered (by simp), fun hasked => ?_⟩
    rw [context_complete] at hasked
    obtain ⟨-, hfresh | ⟨-, hnone⟩⟩ := he.asked hasked
    · cases hfresh with
      | intro _ _ hnone => exact absurd hnone hp
    · exact absurd (hnone rfl) hp

theorem Answers.attributeValue (h : Answers c d) (hcode : code.MakesNodes) :
    Answers c (d.attributeValue code).2 := by
  unfold Cursor.attributeValue
  dsimp only
  by_cases hquoted : d.current = .doubleQuote ∨ d.current = .singleQuote
  · simp only [if_pos hquoted]
    exact ((h.shifts (.bump d)).value hcode).shifts (.eat _ _)
  · simp only [if_neg hquoted]
    exact h.value hcode

/-! ## Attributes -/

/-- What is known among the attributes of a tag. -/
structure InTag (c : Cursor σ) (site : Site) (rs : List Region) : Prop
    extends Stands c site rs where
  site_eq : site = .tag
  plain : ∀ t ∈ c.pending, t.kind ≠ .closeAngle

theorem Stands.inTag (h : Stands c.start.2 .tag rs) : InTag c.start.2 .tag rs where
  toStands := h
  site_eq := rfl
  plain := by
    rw [show c.start.2.pending = [] from pending_flush c _]
    exact fun _ ht => absurd ht List.not_mem_nil

/-- A stretch that does not leave them. -/
def StaysInTag (c d : Cursor σ) : Prop := Carries (InTag c) (InTag d) c d

namespace StaysInTag

theorem refl (c : Cursor σ) : StaysInTag c c := .still (fun _ hs => hs) id fun _ _ h => h

theorem trans (h : StaysInTag c d) (h' : StaysInTag d e) : StaysInTag c e := Carries.trans h h'

theorem answers (h : StaysInTag c d) : Carries (InTag c) (Stands d) c d :=
  h.mono (fun _ _ hc => hc) fun _ _ hd => hd.toStands

theorem bumpN (h : StaysInTag c d) {n : Nat} (hplain : ∀ t ∈ d.ahead.take n, t.kind ≠ .closeAngle) :
    StaysInTag c (d.bumpN n) := by
  have hshifts := Shifts.bumpN d n
  refine h.trans (.still (fun _ hs => hshifts.moves.shows hs) hshifts.fault fun site rs hd => ?_)
  refine ⟨hd.toStands.shifts hshifts, hd.site_eq, fun t ht => ?_⟩
  rw [bumpN_eq hd.held] at ht
  rcases List.mem_append.mp ht with ht | ht
  · exact hplain t (List.mem_reverse.mp ht)
  · exact hd.plain t ht

theorem bump (h : StaysInTag c d) (hk : d.current ≠ .closeAngle) : StaysInTag c d.bump := by
  refine h.bumpN (n := 1) fun t ht => ?_
  cases ha : d.ahead with
  | nil => simp [ha] at ht
  | cons u rest =>
    rw [ha] at ht
    rwa [List.mem_singleton.mp ht, ← current_cons ha]

/-- A tag begins. -/
theorem openAngle (hk : c.fault = none → c.current = .openAngle) :
    StaysInTag c.start.2 c.start.2.bump := by
  refine .given (Shifts.bump _).fault fun hfault _ _ _ => (refl _).bump ?_
  rw [current, nth, ahead_start, ← nth, ← current, hk ((fault_flush c .literal).symm.trans hfault)]
  decide

theorem bumpWhile (h : StaysInTag c d) {test : Token → Bool}
    (htest : ∀ t, test t = true → t.kind ≠ .closeAngle) : StaysInTag c (d.bumpWhile test) := by
  refine h.bumpN fun t ht => htest t ?_
  rw [runLength, List.drop_zero, ← List.prefix_iff_eq_take.mp (List.takeWhile_prefix test)] at ht
  exact List.all_eq_true.mp List.all_takeWhile t ht

/-- The slash of an end tag. -/
theorem slash (h : StaysInTag c d) : StaysInTag c (d.eat .slash).2 := by
  unfold eat
  split
  · next hk =>
    refine h.bump ?_
    rw [eq_of_beq hk]
    decide
  · exact h

/-- Accepted tokens become a node. -/
theorem flush (h : StaysInTag c d) (hkind : kind.holdsTokens = true)
    (hpassive : kind ≠ .codeBlock ∧ kind ≠ .ephemeral) : StaysInTag c (d.flush kind) := by
  refine h.trans (Carries.flush hkind (fun hp site rs hd => ?_) fun hp site rs hd => ?_)
  · rwa [flush_of_pending hp]
  · refine ⟨hd.toStands.flush hp hpassive, ?_, by simp⟩
    rw [hd.site_eq]
    exact Site.behind_tag fun t ht => hd.plain t (List.mem_reverse.mp ht)

theorem flush_literal (h : StaysInTag c d) : StaysInTag c (d.flush .literal) :=
  h.flush rfl (by decide)

theorem bangEscape (h : StaysInTag c d) : StaysInTag c d.bangEscape := by
  unfold Cursor.bangEscape
  split
  · next hbang =>
    have hk : d.current = .bang := by
      simp only [bangEscapeAt, Bool.and_eq_true, beq_iff_eq] at hbang
      exact hbang.1.1
    refine (h.flush_literal.bump ?_).flush rfl (by decide)
    rw [current_flush, hk]
    decide
  · exact h

theorem eatName (h : StaysInTag c d) : StaysInTag c d.eatName := by
  refine h.bumpWhile fun t ht => ?_
  rw [eq_of_beq ht]
  decide

/-- The code parser is called, which may ask for a line ending. -/
theorem block (h : StaysInTag c d) (hcode : code.MakesNodes) (hp : d.pending = [])
    (hne : d.ahead ≠ []) : StaysInTag c (code.block d) := by
  refine h.trans (.given hcode.fault_block fun _ _ _ hd => ?_)
  obtain ⟨n, hmakes, -⟩ := hcode.block hp hd.held hne
  refine carries_node hmakes hcode.fault_block rfl (by decide) fun site rs hd => ?_
  refine ⟨⟨hd.site_ne, hmakes.held, hd.answered.rendered ?_, fun _ => ?_⟩, hd.site_eq, ?_⟩
  · simp [hmakes.kind_eq]
  · refine .direct hmakes.kind_eq fun hcontent => ?_
    rw [hd.site_eq] at hcontent
    cases hcontent
  · simp [hmakes.pending]

/-- A comment leaves a request as it is. -/
theorem comment (h : StaysInTag c d) (hcode : code.MakesNodes) (hp : d.pending = [])
    (hk : d.current = .commentOpen) : StaysInTag c (code.comment d) := by
  refine h.trans (.given hcode.fault_comment fun _ _ _ hd => ?_)
  obtain ⟨n, hmakes, hcontext⟩ := hcode.comment hp hd.held hk
  refine carries_node hmakes hcode.fault_comment rfl (by decide) fun site rs hd => ?_
  have hpassive : Passive ⟨n, site⟩ := by simp [Passive, hmakes.kind_eq]
  obtain ⟨t, rest, ht⟩ := List.exists_cons_of_ne_nil hmakes.tokens_ne_nil
  have hstands := hd.toStands.concat (d := code.comment d) hpassive rfl
    (fun hfirst => ⟨t, by simp [ht], hfirst t (by simp [hmakes.coming, ht])⟩)
    (hmakes.held.trans hd.held.symm) hcontext n.tree
  rw [TokenNode.tree, Site.behind_node (by simp [hmakes.kind_eq])] at hstands
  exact ⟨hstands, hd.site_eq, by simp [hmakes.pending]⟩

/-- A stretch inside a node of its own. -/
theorem node (h : Answers c.start.2 d) (hkind : kind.holdsTokens = false)
    (hinside : Site.inside kind ≠ .value) : StaysInTag c (d.complete c.start.1 kind) := by
  have hopen : Carries (InTag c) (fun site rs => site = .tag ∧ Stands c.start.2 (.inside kind) rs) c
      (c.flush .literal) :=
    (refl c).flush_literal.mono (fun _ _ hc => hc) fun site rs hc =>
      ⟨hc.site_eq, hc.toStands.same hinside rfl rfl rfl⟩
  refine Carries.node h hkind hopen ?_
  refine (Answers.refl d).flush_literal.mono (fun _ _ hd => hd) fun _ rs hd site hsite => ?_
  exact ⟨hd.complete (by rw [hsite]; decide) _ _, hsite, by simp⟩

theorem readAttribute (h : StaysInTag c d) (hcode : code.MakesNodes) :
    StaysInTag c (d.readAttribute code).2 := by
  have hname : Answers d.start.2 (d.start.2.bumpWhile (!·.kind.endsAttributeName)) :=
    (Answers.refl _).shifts (.bumpWhile _ _)
  refine h.trans ?_
  unfold Cursor.readAttribute
  dsimp only
  split
  · dsimp only
    refine node ?_ rfl (by decide)
    exact ((hname.shifts (.bumpN _ _)).shifts (.bumpWhile _ _)).attributeValue hcode
  · exact node hname rfl (by decide)

theorem attributesFrom (hcode : code.MakesNodes) (bound : Nat) (c : Cursor σ) :
    StaysInTag c (Cursor.attributesFrom code bound c).2 := by
  induction bound generalizing c with
  | zero => exact .fail c _
  | succ bound ih =>
    have hspace : StaysInTag c (c.bumpWhile (·.kind.isTrivia)) := by
      refine (refl c).bumpWhile fun t ht hk => ?_
      rw [hk] at ht
      cases ht
    rcases attributesFrom_succ code bound c with hend | ⟨d, hround, hgo⟩
    · rw [hend]
      exact hspace
    · rw [hgo]
      refine (hspace.trans ?_).trans (ih d)
      generalize c.bumpWhile (·.kind.isTrivia) = e at hround
      cases hround with
      | token _ hk => exact (refl e).bump hk
      | block hk =>
        refine (refl e).flush_literal.block hcode (pending_flush _ _) ?_
        rw [ahead_flush]
        exact ahead_ne_nil_of_nth hk (by decide)
      | comment hk =>
        refine (refl e).flush_literal.comment hcode (pending_flush _ _) ?_
        rwa [current_flush]
      | named => exact (refl e).readAttribute hcode

theorem attributes (h : StaysInTag c d) (hcode : code.MakesNodes) :
    StaysInTag c (d.attributes code).2 := h.trans (attributesFrom hcode _ d)

end StaysInTag

/-! ## Tags -/

theorem Answers.bangEscape (h : Answers c d) : Answers c d.bangEscape := by
  unfold Cursor.bangEscape
  split
  · exact (h.flush_literal.shifts (.bump _)).flush rfl (by decide)
  · exact h

theorem answers_closeAngle (name : List Char) (range : Range) (c : Cursor σ) :
    Answers c (c.closeAngle name range).2 := by
  have heat : Answers c (c.eat .closeAngle).2 := (Answers.refl c).shifts (.eat c _)
  unfold Cursor.closeAngle
  dsimp only
  split
  · exact heat
  · exact (heat.report _ _).missing

theorem answers_endTagBlock (name : List Char) (c : Cursor σ) :
    Answers c (c.endTagBlock name).2 := by
  have hopen : Answers c.start.2 (c.start.2.bumpN 2).bangEscape :=
    ((Answers.refl _).shifts (.bumpN _ 2)).bangEscape
  have hname := (hopen.shifts (.eatName _)).shifts (.acceptUntil _ [.closeAngle, .openAngle])
  unfold endTagBlock
  dsimp only
  exact .node (hname.trans (answers_closeAngle name _ _)) rfl (by decide) fun _ h => h

theorem answers_textEndTag (name : List Char) (c : Cursor σ) : Answers c (c.textEndTag name) := by
  have hopen : Answers c ((c.bumpN 2).eatName.eat .closeAngle).2 :=
    (((Answers.refl c).shifts (.bumpN c 2)).shifts (.eatName _)).shifts (.eat _ _)
  unfold textEndTag
  dsimp only
  refine Answers.flush ?_ rfl (by decide)
  split
  · exact hopen
  · exact (hopen.report _ _).shifts (.recoverTextTag _)

theorem Answers.textTag {range : Range} {e : Cursor σ} (h : Answers c d)
    (hends : TextTagEnds range d e) : Answers c (e.flush .markupTransition) := by
  refine Answers.flush ?_ rfl (by decide)
  cases hends with
  | closed => exact h.shifts (.bumpN _ _)
  | reported => exact (h.report _ _).shifts (.recoverTextTag _)

theorem answers_voidEndTag (name : List Char) (c : Cursor σ) : Answers c (c.voidEndTag name) := by
  unfold Cursor.voidEndTag
  dsimp only
  split
  · have hname := ((Answers.refl c).shifts (.bumpN c (c.spacing 0 + 2))).shifts (.eatName _)
    have hskip := hname.shifts (.acceptUntil _ [.closeAngle, .openAngle])
    exact (hskip.shifts (.eat _ .closeAngle)).flush_literal
  · exact .refl c

theorem answers_scriptBodyFrom (hcode : code.MakesNodes) (name : List Char) (bound : Nat)
    (c : Cursor σ) : Answers c (scriptBodyFrom code name bound c) := by
  induction bound generalizing c with
  | zero => exact (Answers.refl c).shifts (.fail c _)
  | succ bound ih =>
    have hskip : Answers c (c.skipTo code .openAngle) := (Answers.refl c).skipTo hcode rfl
    unfold scriptBodyFrom
    dsimp only
    split
    · exact hskip
    · split
      · have hname : Answers (c.skipTo code .openAngle).start.2
            (((c.skipTo code .openAngle).start.2.bumpN 2).eatName.skipTo code .closeAngle) :=
          (((Answers.refl _).shifts (.bumpN _ 2)).shifts (.eatName _)).skipTo hcode rfl
        exact hskip.trans (.node (hname.trans (answers_closeAngle name _ _)) rfl (by decide)
          fun _ h => h)
      · exact (hskip.shifts (.bump _)).trans (ih _)

theorem answers_scriptBody (hcode : code.MakesNodes) (name : List Char) (c : Cursor σ) :
    Answers c (c.scriptBody code name) := answers_scriptBodyFrom hcode name _ c

end Cursor

end TemplateMarkup
