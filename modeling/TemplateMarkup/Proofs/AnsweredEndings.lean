import TemplateMarkup.Proofs.RequestTags
import TemplateMarkup.Proofs.Schema

/-! # Line endings are answered

Between two tags the regions so far lie in the nodes of the open tags, one inside
the other. The walk over tags keeps what is known of them, so in the tree of every
parse with statements a line ending that is not rendered answers a request, or
stands behind a comment. -/

namespace TemplateMarkup

open TemplateMarkup.Tree Region

namespace Cursor

variable {σ : Type} {code : EmbeddedCode σ} {c c₀ d : Cursor σ}

/-! ## The walk over tags -/

/-- The open nodes, down to that in which the walk began, with the site and the regions behind
everything in them. A tag of the text element has no node. -/
inductive Levels (f : List Tree) (fs : List (List Tree)) (start : Site) (before : List Region) :
    OpenTags → List (List Tree) → Site → List Region → Prop
  | none (ts : List Tree) : Levels f fs start before [] ((f ++ ts) :: fs) (start.after ts)
      (before ++ regionsOf start ts)
  | text {t : OpenTag} {tags : OpenTags} {frames : List (List Tree)} {site : Site}
      {rs : List Region} : t.block? = .none → Levels f fs start before tags frames site rs →
      Levels f fs start before (t :: tags) frames site rs
  | node {t : OpenTag} {m : Marker} {tags : OpenTags} {frames : List (List Tree)} {site : Site}
      {rs : List Region} (ts : List Tree) : t.block? = some m →
      m.index = (framesEvents frames).length → site ≠ .value →
      Levels f fs start before tags frames site rs →
      Levels f fs start before (t :: tags) (ts :: frames) (Site.tag.after ts)
        (rs ++ regionsOf .tag ts)

namespace Levels

variable {f : List Tree} {fs frames : List (List Tree)} {start site : Site} {before rs : List Region}
  {tags : OpenTags}

theorem exists_cons (h : Levels f fs start before tags frames site rs) :
    ∃ g outer, frames = g :: outer := by
  induction h with
  | none | node => exact ⟨_, _, rfl⟩
  | text _ _ ih => exact ih

/-- Trees are added to the innermost node. -/
theorem add {g : List Tree} {outer : List (List Tree)}
    (h : Levels f fs start before tags (g :: outer) site rs) (us : List Tree) :
    Levels f fs start before tags ((g ++ us) :: outer) (site.after us)
      (rs ++ regionsOf site us) := by
  generalize hframes : g :: outer = frames at h
  induction h with
  | none ts =>
    obtain ⟨rfl, rfl⟩ := List.cons.inj hframes
    rw [List.append_assoc, List.append_assoc, ← regionsOf_append, ← Site.after_append]
    exact .none (ts ++ us)
  | text ht _ ih => exact .text ht (ih hframes)
  | node ts ht hm hsite hrest =>
    obtain ⟨rfl, rfl⟩ := List.cons.inj hframes
    rw [List.append_assoc, ← regionsOf_append, ← Site.after_append]
    exact .node (g ++ us) ht hm hsite hrest

end Levels

/-- The walk over tags has come from the first cursor to the second. -/
structure Traverses (c₀ c : Cursor σ) (tags : OpenTags) : Prop where
  fault : c.fault = none → c₀.fault = none
  levels ⦃f : List Tree⦄ ⦃fs : List (List Tree)⦄ ⦃start : Site⦄ ⦃before : List Region⦄ :
    c.fault = none → Shows c₀ (f :: fs) → Stands c₀ start before →
    ∃ frames site rs, Shows c frames ∧ Levels f fs start before tags frames site rs ∧
      Stands c site rs

/-- The same of a state of the walk. -/
def Arrives (c₀ : Cursor σ) (w : TagWalk σ) : Prop := Traverses c₀ w.cursor w.openTags

namespace Traverses

variable {tags : OpenTags} {t : OpenTag}

theorem refl (c : Cursor σ) : Traverses c c [] where
  fault := id
  levels f fs start before _ hs hstands := by
    have hnone : Levels f fs start before [] ((f ++ []) :: fs) (start.after [])
        (before ++ regionsOf start []) := .none []
    simp only [List.append_nil, Site.after_nil, regionsOf] at hnone
    exact ⟨_, _, _, hs, hnone, hstands⟩

theorem arrives (h : Traverses c₀ c tags) (complete : Bool) : Arrives c₀ ⟨c, tags, complete⟩ := h

theorem answers (h : Traverses c₀ c tags) (hd : Answers c d) : Traverses c₀ d tags where
  fault hfault := h.fault (hd.fault hfault)
  levels f fs start before hfault hs hstands := by
    obtain ⟨frames, site, rs, hc, hlevels, hat⟩ := h.levels (hd.fault hfault) hs hstands
    obtain ⟨g, outer, rfl⟩ := hlevels.exists_cons
    obtain ⟨ts, hts, hat⟩ := hd.carries hfault hc hat
    exact ⟨_, _, _, hts, hlevels.add ts, hat⟩

/-- A tag of the text element opens. -/
theorem pushText (h : Traverses c₀ c tags) (ht : t.block? = none) : Traverses c₀ c (t :: tags) where
  fault := h.fault
  levels f fs start before hfault hs hstands := by
    obtain ⟨frames, site, rs, hc, hlevels, hat⟩ := h.levels hfault hs hstands
    exact ⟨_, _, _, hc, .text ht hlevels, hat⟩

/-- A tag opens with a node of its own. -/
theorem push (h : Traverses c₀ c tags) (hd : Carries (InTag c.start.2) (Stands d) c.start.2 d)
    (ht : t.block? = some c.start.1) : Traverses c₀ d (t :: tags) := by
  have hflush := h.answers (Answers.refl c).flush_literal
  have hfault (hfault : d.fault = none) : (c.flush .literal).fault = none := hd.fault hfault
  refine ⟨fun hd => hflush.fault (hfault hd), fun f fs start before hnone hs hstands => ?_⟩
  obtain ⟨frames, site, rs, hc, hlevels, hat⟩ := hflush.levels (hfault hnone) hs hstands
  obtain ⟨g, outer, rfl⟩ := hlevels.exists_cons
  have hsame : (c.flush .literal).start = c.start := by
    rw [start_of_pending (pending_flush c _)]
    rfl
  obtain ⟨hstart, hindex⟩ := hc.start
  rw [hsame, pending_flush, flushTrees_nil, List.append_nil] at hstart hindex
  have hbegin : Stands c.start.2 .tag rs := hat.same (by decide) rfl rfl rfl
  obtain ⟨ts, hts, hend⟩ := hd.carries hnone hstart hbegin.inTag
  exact ⟨_, _, _, hts, .node ts ht hindex hat.site_ne hlevels, hend⟩

/-- A tag is closed. -/
theorem close (h : Traverses c₀ c (t :: tags)) : Traverses c₀ (t.close c) tags := by
  have hflush := h.answers (Answers.refl c).flush_literal
  unfold OpenTag.close
  cases hb : t.block? with
  | none =>
    refine ⟨h.fault, fun f fs start before hfault hs hstands => ?_⟩
    obtain ⟨frames, site, rs, hc, hlevels, hat⟩ := h.levels hfault hs hstands
    cases hlevels with
    | text _ hrest => exact ⟨_, _, _, hc, hrest, hat⟩
    | node _ ht => rw [hb] at ht; cases ht
  | some m =>
    have hfault (hd : (c.complete m .tagBlock).fault = none) : (c.flush .literal).fault = none :=
      (fault_flush c _).trans (fault_of_complete hd)
    refine ⟨fun hd => hflush.fault (hfault hd), fun f fs start before hnone hs hstands => ?_⟩
    obtain ⟨frames, site, rs, hc, hlevels, hat⟩ := hflush.levels (hfault hnone) hs hstands
    cases hlevels with
    | text ht => rw [hb] at ht; cases ht
    | @node _ n _ frames site rs ts ht hindex hsite hrest =>
      rw [hb] at ht
      cases ht
      obtain ⟨g, outer, rfl⟩ := hrest.exists_cons
      have hnode := hc.complete hindex .tagBlock
      have hagain : (c.flush .literal).complete m .tagBlock = c.complete m .tagBlock := by
        rw [complete, complete, flush_of_pending (pending_flush c _)]
      rw [hagain, pending_flush, flushTrees_nil, List.append_nil] at hnode
      have hadd := hrest.add [.node .tagBlock ts]
      rw [regionsOf_singleton, regions_node rfl] at hadd
      exact ⟨_, _, _, hnode, hadd, hat.complete hsite m _⟩

theorem keepsTags (c₀ : Cursor σ) : KeepsTags (Traverses c₀) where
  report problem range h := h.answers ((Answers.refl _).report problem range)
  close h := h.close

/-! ### Tags -/

theorem restOfStartTag (h : Traverses c₀ c tags) (hcode : code.MakesNodes)
    (hd : StaysInTag c.start.2 d) (name : List Char) (start : Nat) :
    Arrives c₀ (d.restOfStartTag code tags c.start.1 name start) := by
  have hnode {e : Cursor σ} (he : Carries (InTag c.start.2) (Stands e) c.start.2 e)
      (complete : Bool) : Arrives c₀ ⟨e.complete c.start.1 .tagBlock, tags, complete⟩ :=
    (h.answers (Answers.node he rfl (by decide) fun _ hs => Stands.inTag hs)).arrives complete
  have hattributes := (hd.attributes hcode).answers
  have hslash := hattributes.trans ((Answers.refl _).shifts (.eat _ .slash))
  have hclose : Carries (InTag c.start.2) (Stands (d.throughHead code name start).2) c.start.2
      (d.throughHead code name start).2 := hslash.trans (answers_closeAngle name _ _)
  have hflush : Carries (InTag c.start.2) (Stands (d.behindHead code name start)) c.start.2
      (d.behindHead code name start) := hclose.trans (Answers.refl _).flush_literal
  have hends := restOfStartTag_ends code tags c.start.1 name start d
  generalize d.restOfStartTag code tags c.start.1 name start = w at hends ⊢
  cases hends with
  | cutOff => exact hnode hattributes _
  | unclosed => exact hnode hclose _
  | selfClosing => exact hnode hflush _
  | void => exact hnode (hflush.trans (answers_voidEndTag name _)) _
  | script => exact hnode (hflush.trans (answers_scriptBody hcode name _)) _
  | opened => exact (h.push hflush rfl).arrives _

theorem textStartTag (h : Traverses c₀ c tags) (name : List Char) :
    Arrives c₀ (c.textStartTag tags name) := by
  have hname : Answers c c.bump.eatName := ((Answers.refl c).shifts (.bump c)).shifts (.eatName _)
  have hends := textStartTag_ends tags name c
  generalize c.textStartTag tags name = w at hends ⊢
  cases hends with
  | selfClosing _ hread => exact (h.answers ((hname.shifts (.bumpN _ _)).textTag hread)).arrives _
  | opened _ hread => exact ((h.answers (hname.textTag hread)).pushText rfl).arrives _

theorem startTag (h : Traverses c₀ c tags) (hcode : code.MakesNodes)
    (hk : c.fault = none → c.current = .openAngle) : Arrives c₀ (c.startTag code tags) := by
  unfold Cursor.startTag
  dsimp only
  split
  · exact h.textStartTag _
  · exact h.restOfStartTag hcode ((StaysInTag.openAngle hk).bangEscape.eatName) _ _

theorem endTag (h : Traverses c₀ c tags) : Arrives c₀ (c.endTag tags) := by
  have hbare : Answers c.start.2 (c.start.2.bumpN 2) := (Answers.refl _).shifts (.bumpN _ 2)
  have hblock {d : Cursor σ} {tags : OpenTags} (hd : Traverses c₀ d tags) :
      Traverses c₀ (d.endTagBlock (c.tagNameAt 2)).2 tags :=
    hd.answers (answers_endTagBlock (c.tagNameAt 2) d)
  have hends := endTag_ends tags c
  generalize c.endTag tags = w at hends ⊢
  cases hends with
  | bare => exact (h.answers (Answers.node hbare rfl (by decide) fun _ hs => hs)).arrives _
  | unmatched _ hr => exact (hblock ((keepsTags c₀).removeMatching h hr)).arrives _
  | text _ hr =>
    have hremoved := (keepsTags c₀).removeMatching h hr
    exact (hremoved.close.answers (answers_textEndTag _ _)).arrives _
  | element _ hr => exact (hblock ((keepsTags c₀).removeMatching h hr)).close.arrives _

theorem loneAngle (h : Traverses c₀ c tags) : Arrives c₀ (c.loneAngle tags) := by
  have hbump : Answers c.start.2 c.start.2.bump := (Answers.refl _).shifts (.bump _)
  refine (h.answers ?_).arrives _
  split
  · exact .node (hbump.report _ _) rfl (by decide) fun _ hs => hs
  · exact .node hbump rfl (by decide) fun _ hs => hs

theorem tag (h : Traverses c₀ c tags) (hcode : code.MakesNodes)
    (hk : c.fault = none → c.current = .openAngle) : Arrives c₀ (c.tag code tags) := by
  unfold Cursor.tag
  split
  · exact h.loneAngle
  · split
    · exact (h.answers (answers_specialTag hcode c)).arrives _
    · split
      · exact h.endTag
      · exact h.startTag hcode hk

theorem tagsFrom (hcode : code.MakesNodes) (bound : Nat) {w : TagWalk σ} (h : Arrives c₀ w) :
    Arrives c₀ (Cursor.tagsFrom code bound w) := by
  induction bound generalizing w with
  | zero => exact (Traverses.answers h ((Answers.refl _).shifts (.fail _ _))).arrives _
  | succ bound ih =>
    have hscan : Answers w.cursor (w.cursor.skipTo code .openAngle) :=
      (Answers.refl _).skipTo hcode rfl
    have hskip := Traverses.answers h hscan.flush_literal
    unfold Cursor.tagsFrom
    dsimp only
    split
    · exact hskip.arrives _
    · next hend =>
      have hk (hfault : ((w.cursor.skipTo code .openAngle).flush .literal).fault = none) :
          ((w.cursor.skipTo code .openAngle).flush .literal).current = .openAngle := by
        rw [fault_flush] at hfault
        rw [current_flush]
        have hne : (w.cursor.skipTo code .openAngle).ahead ≠ [] := by simpa [atEnd] using hend
        exact eq_of_beq ((stop_scanFrom (kindTest_at .openAngle) hfault).resolve_left hne)
      have htag := hskip.tag hcode hk
      split
      · exact htag
      · exact ih htag

/-- A walk that has closed its tags. -/
theorem done (h : Traverses c d []) : Answers c d where
  fault := h.fault
  carries f fs site rs hfault hs hstands := by
    obtain ⟨frames, site', rs', hd, hlevels, hat⟩ := h.levels hfault hs hstands
    cases hlevels with
    | none ts => exact ⟨ts, hd, hat⟩

end Traverses

/-! ## Units of markup -/

theorem answers_tagBlock (hcode : code.MakesNodes) (c : Cursor σ) :
    Answers c (c.tagBlock code) := by
  have hwalk := Traverses.tagsFrom hcode (c.unclaimed + 1) ((Traverses.refl c).arrives false)
  have hdrained := (Traverses.keepsTags c).drain hwalk
  refine Traverses.done ?_
  unfold tagBlock endTags
  dsimp only
  generalize tagsFrom code (c.unclaimed + 1) ⟨c, [], false⟩ = w at hdrained ⊢
  generalize (w.openTags.drain w.cursor).2 = d at hdrained ⊢
  have heat : Answers d ((d.eat .whitespace).2.eat .newline).2 :=
    ((Answers.refl d).shifts (.eat d _)).shifts (.eat _ _)
  refine hdrained.answers (Answers.flush_literal ?_)
  split <;> split <;> first | exact heat | exact .refl d

/-- Nothing is known of a request behind markup that ends with its line. -/
theorem Answers.answered (h : Answers c d) : Carries (Stands c) AnsweredAt c d :=
  h.mono (fun _ _ hc => hc) fun _ _ hd => hd.answered

theorem carries_singleLine (hcode : code.MakesNodes) (c : Cursor σ) :
    Carries (Stands c) AnsweredAt c (c.singleLine code) := by
  have hinside : Answers c { c with context.whitespaceSignificant := true } :=
    .still (fun _ hs => hs.same rfl rfl rfl) id fun _ _ hc => hc.same hc.site_ne rfl rfl rfl
  have hscan := (hinside.mono (fun _ _ hc => hc) fun _ _ hd => hd.scans).trans
    (carries_skipTo hcode .newline _)
  unfold singleLine
  dsimp only
  generalize Cursor.skipTo _ code .newline = d at hscan
  have hline : Carries AnsweredAt AnsweredAt d (d.eat .newline).2 :=
    .still (fun _ hs => (Moves.eat d _).shows hs) (Shifts.eat d _).fault fun _ _ h => h
  have houter (e : Cursor σ) : Carries AnsweredAt AnsweredAt e
      { e with context.whitespaceSignificant := c.context.whitespaceSignificant } :=
    .still (fun _ hs => hs.same rfl rfl rfl) id fun _ _ h => h
  exact (((hscan.trans (carries_unasked d)).trans hline).trans (houter _)).trans .flushLiteral

theorem carries_blockContent (hcode : code.MakesNodes) (c : Cursor σ) :
    Carries (Stands c) AnsweredAt c (c.blockContent code) := by
  have hafter (c : Cursor σ) : Carries (Stands c) AnsweredAt c (c.afterTransition code) := by
    unfold afterTransition
    split
    · have hcolon : Answers c (c.bump.flush .metacode) :=
        ((Answers.refl c).shifts (.bump c)).flush rfl (by decide)
      exact Carries.trans hcolon (carries_singleLine hcode _)
    · exact (answers_tagBlock hcode c).answered
    · exact (Answers.refl c).answered
  have hdoubled (c : Cursor σ) : Answers c c.doubledTransition := by
    unfold doubledTransition
    dsimp only
    split
    · exact ((Answers.refl c).shifts (.eat c _)).flush rfl (by decide)
    · exact (Answers.refl c).shifts (.eat c _)
  unfold blockContent
  split
  · exact (answers_tagBlock hcode c).answered
  · have htransition : Answers c ((c.flush .literal).bump.flush .markupTransition) :=
      ((Answers.refl c).flush_literal.shifts (.bump _)).flush rfl (by decide)
    exact Carries.trans (htransition.trans (hdoubled _)) (hafter _)
  · exact (Answers.refl c).answered
  · exact ((Answers.refl c).report _ _).answered

/-! ## Nested regions -/

theorem answers_looseTag (hcode : code.MakesNodes) (hk : c.current = .openAngle) :
    Answers c (c.looseTag code) := by
  have hnode {d : Cursor σ} (hd : Carries (InTag c.start.2) (Stands d) c.start.2 d) :
      Answers c (d.complete c.start.1 .tagBlock) :=
    .node hd rfl (by decide) fun _ hs => Stands.inTag hs
  have hslash : StaysInTag c.start.2 (c.start.2.bump.eat .slash).2 :=
    (StaysInTag.openAngle fun _ => hk).slash
  have hname := hslash.bangEscape.eatName
  unfold looseTag
  split
  · exact answers_specialTag hcode c
  · dsimp only
    split
    · refine hnode (hname.answers.trans ?_)
      exact ((Answers.refl _).shifts (.bumpWhile _ _)).shifts (.eat _ _)
    · have hread := (hname.attributes hcode).answers.trans
        (((Answers.refl _).shifts (.eat _ .slash)).shifts (.eat _ .closeAngle))
      refine hnode ?_
      split
      · have hflush := hread.trans (Answers.refl _).flush_literal
        split
        · exact hflush.trans (answers_scriptBody hcode _ _)
        · exact hflush
      · exact hread

theorem shifts_nestingText (c : Cursor σ) (opener closer : List Char) (depth : Nat) :
    Shifts c (c.nestingText opener closer depth).2 := by
  unfold nestingText
  split
  · exact (Shifts.splitAfter c _).trans (.bump _)
  · split
    · exact .fail c _
    · split
      · dsimp only
        split
        · exact (Shifts.splitAfter c _).trans (.bump _)
        · exact .refl c
      · exact (Shifts.splitAfter c _).trans (.bump _)
  · exact .bump c

theorem answers_nestingFrom (hcode : code.MakesNodes) (opener closer : List Char)
    (bound depth : Nat) (c : Cursor σ) :
    Answers c (nestingFrom code opener closer bound depth c) := by
  induction bound generalizing depth c with
  | zero => exact (Answers.refl c).shifts (.fail c _)
  | succ bound ih =>
    have hskip : Answers c (c.skipUntil code fun c => c.at? .text || c.at? .openAngle) := by
      refine (Answers.refl c).skipUntil hcode (fun d e h => ?_) fun d hstop => ?_
      · exact congrArg₂ _ (kindTest_at .text h) (kindTest_at .openAngle h)
      · refine (Bool.or_eq_true_iff.mp hstop).imp eq_of_beq fun hangle => ?_
        rw [eq_of_beq hangle]
        rfl
    unfold nestingFrom
    dsimp only
    split
    · exact hskip
    · split
      · next hk =>
        refine (hskip.flush_literal.trans (answers_looseTag hcode ?_)).trans (ih _ _)
        rw [current_flush]
        exact eq_of_beq hk
      · have htext := hskip.shifts (shifts_nestingText _ opener closer depth)
        split
        · exact htext
        · exact htext.trans (ih _ _)

/-! ## The tree of a parse -/

theorem fault_leaveRest (h : c.leaveRest.fault = none) : c.fault = none := by
  unfold leaveRest at h
  dsimp only at h
  split at h
  · exact h
  · have hraw := fault_of_complete h
    have hread := (Shifts.bumpN c.putBack.start.2 c.putBack.start.2.ahead.length).fault hraw
    exact (fault_flush c.putBack .literal).symm.trans hread

theorem fault_of_result {p : Parse σ} (h : c.result = .ok p) : c.fault = none := by
  unfold result at h
  split at h <;> first | assumption | cases h

theorem answered_flushTrees {rs : List Region} (h : Answered rs) (kind : Kind)
    (hkind : kind.holdsTokens = true) (hne : kind ≠ .ephemeral) (site : Site) (ts : List Token) :
    Answered (rs ++ regionsOf site (flushTrees kind ts)) := by
  unfold flushTrees
  split
  · rwa [regionsOf, List.append_nil]
  · rw [regionsOf_singleton]
    show Answered (rs ++ (TokenNode.tree ⟨kind, ts.reverse⟩).regions site)
    rw [regions_tree hkind]
    exact h.rendered hne

theorem answered_run {body : Cursor σ → Cursor σ} {source : List Char} {context : Context} {host : σ}
    (hbody : ∀ c : Cursor σ, Carries (Stands c.start.2) AnsweredAt c.start.2 (body c))
    (hflag : context.ephemeralLineEnding = false) {p : Parse σ}
    (hok : ((ofSource source context host).run fun c =>
      (body c).complete c.start.1 .markupBlock).result = .ok p) :
    Answered (p.tree.regions .content) := by
  have hstart := shows_root source context host
  have hstands : Stands (ofSource source context host).start.2 .content [] :=
    ⟨by decide, rfl, answered_nil, fun hasked => by
      have hasked : context.ephemeralLineEnding = true := hasked
      rw [hflag] at hasked
      cases hasked⟩
  unfold run at hok
  dsimp only at hok
  generalize (ofSource source context host).start.2 = c at hok hstart hstands
  have hopen : Carries (Stands c) (fun _ rs => True ∧ Stands c.start.2 (.inside .markupBlock) rs) c
      (c.flush .literal) :=
    (Answers.refl c).flush_literal.mono (fun _ _ hc => hc) fun _ _ hc =>
      ⟨trivial, hc.same (by decide) rfl rfl rfl⟩
  have hunit : Carries (Stands c) AnsweredAt c ((body c).complete c.start.1 .markupBlock) :=
    .node (hbody c) rfl hopen (Carries.flushLiteral.mono (fun _ _ h => h) fun _ _ h _ _ => h)
  generalize (body c).complete c.start.1 .markupBlock = d at hok hunit
  have hleft := fault_leaveRest (fault_of_complete (fault_of_result hok))
  have hd : d.fault = none := (fault_flush d .literal).symm.trans hleft
  obtain ⟨ts, hts, hanswered⟩ := hunit.carries hd hstart hstands
  obtain ⟨htree, -⟩ := result_of_shows hts hok
  rw [htree, List.nil_append, regions_node rfl, regionsOf_append, regionsOf_append]
  have hliteral := answered_flushTrees hanswered .literal rfl (by decide) (Site.content.after ts) d.pending
  exact answered_flushTrees hliteral .unparsed rfl (by decide) _ _

end Cursor

/-- With code whose calls make one node each, a line ending that is not rendered answers a request or
stands behind a comment. -/
theorem EmbeddedCode.MakesNodes.answered {σ : Type} {code : EmbeddedCode σ} (hcode : code.MakesNodes)
    {options : Options} {host : σ} {nesting? : Option Nesting} {source : String} {p : Parse σ}
    (hok : (Parser.finish options code host nesting? source).result = .ok p) :
    Answered (p.tree.regions .content) := by
  rw [Parser.finish_eq_run] at hok
  refine Cursor.answered_run (fun c => ?_) rfl hok
  cases nesting? with
  | none =>
    have hspace : Cursor.Answers c.start.2 (c.start.2.bumpWhile (·.kind.isTrivia)) :=
      (Cursor.Answers.refl _).shifts (.bumpWhile _ _)
    exact Cursor.Carries.trans hspace (Cursor.carries_blockContent hcode _)
  | some nesting =>
    exact (Cursor.answers_nestingFrom hcode _ _ _ _ _).flush_literal.answered

namespace Sample

/-- In every parse with statements, a line ending that is not rendered comes directly behind code or
a comment, or it answers a request that was left over. -/
theorem parse_answered (options : Options) (host : Sample.statement.Host)
    (nesting? : Option Nesting) (source : String) :
    ∃ p, Parser.parse ⟨some options, Sample.statement.code, host⟩ nesting? source = .ok p ∧
      Answered (p.tree.regions .content) := by
  obtain ⟨p, hp, -⟩ := Parser.finish_covers Sample.statement.lawful options host nesting? source
    trivial
  exact ⟨p, by rw [Parser.parse_eq, hp]; rfl, Cursor.makesNodes_statement.answered hp⟩

/-- A line ending behind the third node is not rendered, though this is neither code nor a comment. -/
def EndsLate {σ : Type} (p : Parse σ) : Bool :=
  match (p.tree.regions .content).drop 2 with
  | last :: r :: _ => r.kind == .ephemeral && r.tokens.any (·.kind == .newline) &&
      last.kind != .codeBlock && last.kind != .inlineComment
  | _ => false

/-- A request in a tag, and one in front of a tag, mark the line ending behind the tag. -/
theorem not_direct_behind_tag :
    (∃ p, Parser.parse ⟨some {}, Sample.statement.code, ()⟩ none "<p @a>\nx</p>" = .ok p ∧
      ¬ Direct (p.tree.regions .content)) ∧
    ∃ p, Parser.parse ⟨some {}, Sample.statement.code, ()⟩ none "<p>@a<b>\nx</b></p>" = .ok p ∧
      ¬ Direct (p.tree.regions .content) := by
  have hlate {σ : Type} {result : Except ParseError (Parse σ)}
      (h : result.toOption.any EndsLate = true) :
      ∃ p, result = .ok p ∧ ¬ Direct (p.tree.regions .content) := by
    obtain ⟨p, hp, hcheck⟩ := Parse.exists_of_check h
    refine ⟨p, hp, fun hdirect => ?_⟩
    unfold EndsLate at hcheck
    split at hcheck
    · next last r rest heq =>
      simp only [Bool.and_eq_true, bne_iff_ne, List.any_eq_true, beq_iff_eq] at hcheck
      obtain ⟨⟨⟨hkind, hline⟩, hcode⟩, hcomment⟩ := hcheck
      have hregions := List.take_append_drop 2 (p.tree.regions .content)
      rw [heq] at hregions
      have hpre : ((p.tree.regions .content).take 2 ++ [last]) ++ [r] <+: p.tree.regions .content :=
        ⟨rest, by simpa using hregions⟩
      obtain ⟨front, u, hu, hbefore⟩ := hdirect hpre ⟨hkind, hline⟩
      obtain ⟨-, hlast⟩ := List.append_inj' hu rfl
      rw [← List.singleton_inj.mp hlast] at hbefore
      exact hbefore.elim hcode hcomment
    · cases hcheck
  exact ⟨hlate (by decide +kernel), hlate (by decide +kernel)⟩

end Sample

end TemplateMarkup
