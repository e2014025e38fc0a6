import TemplateMarkup.Proofs.Outcome
import TemplateMarkup.Proofs.Reporting
import TemplateMarkup.Proofs.StartTags

/-! # Silence means well-formed, but for two exits

Whatever else goes wrong in a tag is reported, so a parse without diagnostics
leaves only elements that are well formed, that the `<` of another tag cuts off,
or that are scripts open at the end of the source. The walk over the tags keeps
`Quiet`, and behind it a report tells whether a tag is still open. -/

namespace TemplateMarkup

open Piece

namespace Cursor

variable {σ : Type} {code : EmbeddedCode σ} {c d : Cursor σ} {tags : OpenTags} {t : OpenTag}
  {m : Marker} {outer : List Frame} {name : List Char} {base : List Event} {ms : List Marker}

/-! ## Open tags that are taken off -/

theorem closeUnended_reports (t : OpenTag) (c : Cursor σ) :
    (t.closeUnended c).diagnostics ≠ #[] := by
  rw [OpenTag.closeUnended, diagnostics_close]
  exact report_ne_nil c _ _

theorem removeMatching_reports (name : List Char) (endTag : Nat) (tags : OpenTags)
    (h : c.diagnostics ≠ #[]) :
    (OpenTags.removeMatching name endTag tags c).2.2.diagnostics ≠ #[] := by
  induction tags generalizing c with
  | nil => exact report_ne_nil c _ _
  | cons t rest ih =>
    have hclosed := closeUnended_reports t c
    unfold OpenTags.removeMatching
    dsimp only
    split
    · exact h
    · split
      · exact hclosed
      · exact ih hclosed

/-- In silence the end tag is for the innermost open tag. -/
theorem removeMatching_silent {endTag : Nat}
    (h : (OpenTags.removeMatching name endTag tags c).2.2.diagnostics = #[]) :
    ∃ t rest, tags = t :: rest ∧ Text.sameIgnoringCase t.name name = true ∧
      OpenTags.removeMatching name endTag tags c = (some t, rest, c) := by
  cases tags with
  | nil => exact absurd h (report_ne_nil c _ _)
  | cons t rest =>
    have hclosed := closeUnended_reports t c
    unfold OpenTags.removeMatching at h ⊢
    dsimp only at h ⊢
    by_cases hsame : Text.sameIgnoringCase t.name name = true
    · rw [if_pos hsame]
      exact ⟨t, rest, rfl, hsame, rfl⟩
    · rw [if_neg hsame] at h
      split at h
      · exact absurd h hclosed
      · exact absurd h (removeMatching_reports name endTag rest hclosed)

/-- In silence no tag is open at the end. -/
theorem drain_silent (h : (tags.drain c).2.diagnostics = #[]) : tags = [] := by
  cases tags with
  | nil => rfl
  | cons t rest =>
    have hdrain : (OpenTags.drain (t :: rest) c).2.diagnostics = (t.closeUnended c).diagnostics :=
      diagnostics_foldl_close rest _
    rw [hdrain] at h
    exact absurd h (closeUnended_reports t c)

/-! ## Tags of the text element -/

/-- A text tag has no node of its own, so it may come and go. -/
theorem Between.pushText (h : Between m outer c []) (hblock : t.block? = none) :
    Between m outer c [t] := by
  obtain ⟨n, ps, fs, hview, hsettled, hwaiting⟩ := h.frames
  refine ⟨h.context, n, ps, fs, hview, hsettled, ?_⟩
  cases hwaiting with
  | none => exact .text _ hblock

theorem Between.popText (h : Between m outer c [t]) (hblock : t.block? = none) :
    Between m outer c [] := by
  obtain ⟨n, ps, fs, hview, hsettled, hwaiting⟩ := h.frames
  refine ⟨h.context, n, ps, fs, hview, hsettled, ?_⟩
  cases hwaiting with
  | text => exact .none _
  | node hnode => exact absurd (hblock.symm.trans hnode) (by simp)

/-- Accepted tokens that end in a transition of their own. -/
theorem Accepts.transition (h : Accepts c d) (hp : c.pending = []) :
    Grows Free c (d.flush .markupTransition) :=
  h.flush hp (by decide) fun ts => free_part (by decide) (free_leaves ts)

theorem recoverTextTag_reports (c : Cursor σ) (problem : Problem) (range : Range) :
    ((c.report problem range).recoverTextTag.flush .markupTransition).diagnostics ≠ #[] := by
  have hskip := (Accepts.bumpWhile (c.report problem range)
    (!([.closeAngle, .newline] : List Kind).contains ·.kind)).trans (.eat _ .closeAngle)
  rw [diagnostics_flush, recoverTextTag, acceptUntil, hskip.diagnostics]
  exact report_ne_nil c problem range

theorem grows_textEndTag (hp : c.pending = []) (h : (c.textEndTag name).diagnostics = #[]) :
    Grows Free c (c.textEndTag name) := by
  have hopen := ((Accepts.bumpN c 2).trans (.bumpWhile _ (·.kind == .text))).trans
    (.eat _ .closeAngle)
  unfold textEndTag at h ⊢
  dsimp only at h ⊢
  split at h
  · next hclosed =>
    rw [if_pos hclosed]
    exact hopen.transition hp
  · exact absurd h (recoverTextTag_reports _ _ _)

theorem Between.textStartTag (hb : Between m outer c []) (hp : c.pending = [])
    (h : (c.textStartTag [] name).cursor.diagnostics = #[]) :
    Between m outer (c.textStartTag [] name).cursor (c.textStartTag [] name).openTags := by
  have hopen := (Accepts.bump c).trans (.bumpWhile _ (·.kind == .text))
  have hends := textStartTag_ends [] name c
  generalize c.textStartTag [] name = w at h hends ⊢
  cases hends with
  | selfClosing _ hread =>
    cases hread with
    | closed => exact hb.grows (((hopen.trans (.bumpN _ _)).trans (.bumpN _ _)).transition hp)
    | reported => exact absurd h (recoverTextTag_reports _ _ _)
  | opened _ hread =>
    cases hread with
    | closed => exact (hb.grows ((hopen.trans (.bumpN _ _)).transition hp)).pushText rfl
    | reported => exact absurd h (recoverTextTag_reports _ _ _)

/-! ## Tags -/

/-- What the walk over the tags keeps in silence. -/
inductive Quiet (m : Marker) (outer : List Frame) (c : Cursor σ) (tags : OpenTags) : Prop
  | between : Between m outer c tags → Quiet m outer c tags
  /-- The source ends in a `<`, and a report about an open tag is still to come. -/
  | last : c.ahead = [] → tags ≠ [] → Quiet m outer c tags

theorem Quiet.loneAngle (hne : c.ahead.drop 1 = [])
    (h : (c.loneAngle tags).cursor.diagnostics = #[]) :
    Quiet m outer (c.loneAngle tags).cursor (c.loneAngle tags).openTags := by
  unfold Cursor.loneAngle at h ⊢
  dsimp only at h ⊢
  rw [diagnostics_complete] at h
  split at h
  · exact absurd h (report_ne_nil _ _ _)
  · next htags =>
    rw [if_neg htags]
    refine .last ?_ (by simpa using htags)
    rw [ahead_complete, ahead_bump, ahead_start, ← List.drop_one, hne]

/-- A `</` at the end of the source is no start tag. -/
theorem Between.openEndTag (hb : Between m outer c tags) (hh : c.held = []) {lt slash : Token}
    (ha : c.ahead = [lt, slash]) (hs : Sound False base ms c) (hslash : slash.kind = .slash) :
    Between m outer ((c.start.2.bumpN 2).complete c.start.1 .tagBlock) tags := by
  have hopen : Takes [lt, slash] [leaf lt, leaf slash] c.start.2 (c.start.2.bumpN 2) :=
    .bumpN ((held_start c).trans hh) ((ahead_start c).trans ha)
  refine hb.block hopen.adds (allSettled_free (free_leaves [lt, slash])) fun helement => ?_
  have hne : slash.text ≠ [] := hs.nonempty slash (by simp [tokens, ha])
  simp [TagBlock.isElement, isToken_leaf hslash hne] at helement

/-- An end tag that is read in silence is for the innermost open tag. -/
theorem endTag_silent (hs : Sound False base (tags.markers ++ ms) c) (hne : c.ahead ≠ [])
    (hend : c.nth 2 ≠ .endOfInput) (h : (c.endTag tags).cursor.diagnostics = #[]) :
    ∃ t others, tags = t :: others ∧ Text.sameIgnoringCase t.name (c.tagNameAt 2) = true ∧
      OpenTags.removeMatching (c.tagNameAt 2) c.offset tags c = (some t, others, c) := by
  have hremove := (Reaches.refl hs).removeMatching (c.tagNameAt 2) c.offset nofun nofun
  have hahead := ahead_removeMatching (c.tagNameAt 2) c.offset tags c
  refine removeMatching_silent ?_
  have hblock := (Reaches.refl hremove.sound).endTagBlock (c.tagNameAt 2) (by rwa [hahead]) nofun
  have hends := endTag_ends tags c
  generalize c.endTag tags = w at h hends
  cases hends with
  | bare hbare => exact absurd hbare hend
  | unmatched _ hr =>
    rw [hr] at hblock ⊢
    dsimp only at hblock h ⊢
    exact hblock.path.silent h
  | @text t d _ hr =>
    rw [hr] at hremove hahead ⊢
    have hclosed : (t.close d).ahead ≠ [] := by rwa [ahead_close, hahead]
    have htext := (Reaches.refl hremove.sound).closeTag.textEndTag (c.tagNameAt 2) hclosed nofun
    dsimp only at h ⊢
    exact htext.path.silent h
  | element _ hr =>
    rw [hr] at hblock ⊢
    rw [diagnostics_close] at h
    dsimp only at hblock ⊢
    exact hblock.path.silent h

theorem Between.endTag (hb : Between m outer c tags) (hh : c.held = []) (hp : c.pending = [])
    (hs : Sound False base (tags.markers ++ ms) c) (hlt : c.current = .openAngle)
    (hslash : c.nth 1 = .slash) (h : (c.endTag tags).cursor.diagnostics = #[]) :
    Between m outer (c.endTag tags).cursor (c.endTag tags).openTags := by
  obtain ⟨lt, slash, rest, ha, hlt, hslash⟩ := exists_endTagStart hlt hslash
  have hinnermost (hend : c.nth 2 ≠ .endOfInput) := endTag_silent hs (by simp [ha]) hend h
  have hends := endTag_ends tags c
  generalize c.endTag tags = w at h hends ⊢
  cases hends with
  | bare hend =>
    have hnil : rest = [] := by
      obtain ⟨n, ps, fs, hview, -⟩ := hb.frames
      cases rest with
      | nil => rfl
      | cons t rest =>
        have hkind : t.kind = .endOfInput := by simpa [nth, ha, Token.kindAt] using hend
        exact absurd hkind (hview.sane t (by simp [tokens, ha])).kind_ne
    exact (hb.openEndTag hh (by rw [ha, hnil]) hs hslash).walk _
  | unmatched hend hr =>
    obtain ⟨t, others, rfl, -, hremoved⟩ := hinnermost hend
    rw [hremoved] at hr
    cases hr
  | @text t _ hend hr htext =>
    obtain ⟨_, others, rfl, hsame, hremoved⟩ := hinnermost hend
    rw [hremoved] at hr
    cases hr
    rw [hb.context] at htext
    have hblock : t.block? = none := by
      obtain ⟨n, ps, fs, -, -, hwaiting⟩ := hb.frames
      refine hwaiting.block_eq_none ?_
      rw [Options.isTextTag, Text.sameIgnoringCase] at htext ⊢
      rwa [Text.sameIgnoringCase_iff.mp hsame]
    have hclose : t.close c = c := by rw [OpenTag.close, hblock]
    rw [hclose] at h ⊢
    exact ((hb.grows (grows_textEndTag hp h)).popText hblock).walk _
  | element hend hr =>
    obtain ⟨t, others, rfl, hsame, hremoved⟩ := hinnermost hend
    rw [hremoved] at hr
    cases hr
    rw [diagnostics_close] at h
    obtain ⟨inner, hinner, hfree, hend⟩ :=
      endTagBlock_silent hs hh ha hlt hslash (by rw [Text.sameIgnoringCase_comm, hsame]) _ h
    exact (hb.pop hinner hfree hend).walk _

theorem Between.startTag (he : code.Enclosing) (hl : code.Lawful False fun _ => True)
    (hb : Between m outer c tags) (hh : c.held = []) (hp : c.pending = []) (hs : Sound False base ms c)
    (hlt : c.current = .openAngle) (h : (c.startTag code tags).cursor.diagnostics = #[]) :
    Between m outer (c.startTag code tags).cursor (c.startTag code tags).openTags := by
  obtain ⟨lt, rest, ha⟩ := List.exists_cons_of_ne_nil (ahead_ne_nil_of_nth hlt (by decide))
  unfold Cursor.startTag at h ⊢
  dsimp only at h ⊢
  split at h
  · next htext =>
    obtain rfl : tags = [] := by simpa using htext.1
    rw [if_pos htext]
    exact hb.textStartTag hp h
  · next htext =>
    rw [if_neg htext]
    rw [hb.context] at htext
    obtain ⟨head, hn⟩ := named hh ha
    have hsound := (Reaches.refl hs).start.bump.bangEscape.eatName.sound
    refine hb.restOfStartTag he hl hn hsound (fun hnil => ?_) _ h
    simpa [hnil] using htext

/-- One tag. -/
theorem Between.tag (he : code.Enclosing) (hl : code.Lawful False fun _ => True)
    (hb : Between m outer c tags) (hh : c.held = []) (hp : c.pending = [])
    (hs : Sound False base (tags.markers ++ ms) c) (hlt : c.current = .openAngle)
    (h : (c.tag code tags).cursor.diagnostics = #[]) :
    Quiet m outer (c.tag code tags).cursor (c.tag code tags).openTags := by
  unfold Cursor.tag at h ⊢
  dsimp only at h ⊢
  split at h
  · next hend =>
    rw [if_pos hend]
    refine .loneAngle ?_ h
    obtain ⟨n, ps, fs, hview, -⟩ := hb.frames
    cases hdrop : c.ahead.drop 1 with
    | nil => rfl
    | cons t rest =>
      have hmem : t ∈ c.ahead := List.mem_of_mem_drop (hdrop ▸ List.mem_cons_self ..)
      rw [nth_eq hdrop] at hend
      exact absurd hend (hview.sane t (by simp [tokens, hmem])).kind_ne
  · next hend =>
    rw [if_neg hend]
    split at h
    · next hspecial =>
      rw [if_pos hspecial]
      exact .between (hb.grows (grows_specialTag he (by rw [hb.context])))
    · next hspecial =>
      rw [if_neg hspecial]
      split at h
      · next hslash =>
        rw [if_pos hslash]
        exact .between (hb.endTag hh hp hs hlt hslash h)
      · next hslash =>
        rw [if_neg hslash]
        exact .between (hb.startTag he hl hh hp hs hlt h)

theorem ahead_scanFrom_nil {stop : Cursor σ → Bool} {bound : Nat} {place : LinePlace}
    (ha : c.ahead = []) : (scanFrom code stop bound place c).ahead = [] := by
  cases bound with
  | zero => exact ha
  | succ bound =>
    rw [scanFrom, if_pos (by simp [atEnd, ha]), ahead_acceptRead, ha]

/-- The walk over all tags of a unit. -/
theorem Quiet.tagsFrom (he : code.Enclosing) (hl : code.Lawful False fun _ => True) {bound : Nat}
    {w : TagWalk σ} (hq : Quiet m outer w.cursor w.openTags)
    (hs : Sound False base (w.openTags.markers ++ ms) w.cursor) (hb : w.cursor.unclaimed < bound)
    (h : (Cursor.tagsFrom code bound w).cursor.diagnostics = #[]) :
    Quiet m outer (Cursor.tagsFrom code bound w).cursor (Cursor.tagsFrom code bound w).openTags := by
  induction bound generalizing w with
  | zero => exact absurd hb (Nat.not_lt_zero _)
  | succ bound ih =>
    unfold Cursor.tagsFrom at h ⊢
    dsimp only at h ⊢
    cases hq with
    | last ha htags =>
      have hnone : (w.cursor.skipTo code .openAngle).ahead = [] := ahead_scanFrom_nil ha
      rw [if_pos (by simp [atEnd, hnone])]
      exact .last ((ahead_flush _ _).trans hnone) htags
    | between hbetween =>
      have hgrows := grows_skipTo he (by rw [hbetween.context]) .openAngle |>.flush_literal
      have hreach := ((Reaches.refl hs).skipTo hl.toStepwise .openAngle trivial).flush .literal
      have hleft : ((w.cursor.skipTo code .openAngle).flush .literal).held = [] ∧
          ((w.cursor.skipTo code .openAngle).flush .literal).pending = [] :=
        ⟨(held_flush _ _).trans (held_skipTo hl hs .openAngle), pending_flush _ _⟩
      have hat : ((w.cursor.skipTo code .openAngle).flush .literal).ahead = [] ∨
          ((w.cursor.skipTo code .openAngle).flush .literal).current = .openAngle := by
        simpa [current, nth] using at_skipTo hl hs .openAngle
      generalize (w.cursor.skipTo code .openAngle).flush .literal = c at h hgrows hreach hleft hat ⊢
      have hbetween := hbetween.grows hgrows
      by_cases hend : c.atEnd = true
      · rw [if_pos hend]
        exact .between hbetween
      · rw [if_neg hend] at h ⊢
        have hne := ahead_ne_nil_of_not_atEnd hend
        have hlt := hat.resolve_left hne
        have htag := (Reaches.refl hreach.sound).tag hl False.elim trivial hne
        by_cases hnone : (c.tag code w.openTags).openTags.isEmpty = true
        · rw [if_pos hnone] at h ⊢
          exact hbetween.tag he hl hleft.1 hleft.2 hreach.sound hlt h
        · rw [if_neg hnone] at h ⊢
          have hgain := htag.gained
          have hle := hreach.gained
          have hbound : (c.tag code w.openTags).cursor.unclaimed < bound := by omega
          have hrest := Reaches.tagsFrom hl hbound trivial ⟨Reaches.refl htag.sound, False.elim⟩
          exact ih (hbetween.tag he hl hleft.1 hleft.2 hreach.sound hlt (hrest.path.silent h))
            htag.sound hbound h

/-- Behind the tags only spacing is claimed. -/
theorem endTags_eq_drain (w : TagWalk σ) :
    Grows Free (w.openTags.drain w.cursor).2 (Cursor.endTags w) := by
  have heat := ((Accepts.eat (w.openTags.drain w.cursor).2 .whitespace).trans
    (.eat _ .newline)).grows (P := Free) free_leaf |>.flush_literal
  have hnone := (Grows.refl (P := Free) (w.openTags.drain w.cursor).2).flush_literal
  unfold Cursor.endTags
  dsimp only
  split
  · split
    · exact heat
    · exact hnone
  · split
    · exact heat
    · exact hnone

theorem Grows.diagnostics {P : Piece → Prop} (h : Grows P c d) : d.diagnostics = c.diagnostics := by
  obtain ⟨ps, hps, -⟩ := h
  exact hps.diagnostics

/-- In silence no tag is open at the end. -/
theorem Quiet.endTags {w : TagWalk σ} (hq : Quiet m outer w.cursor w.openTags)
    (h : (Cursor.endTags w).diagnostics = #[]) : Between m outer (Cursor.endTags w) [] := by
  have hgrows := endTags_eq_drain w
  rw [hgrows.diagnostics] at h
  obtain ⟨c, tags, complete⟩ := w
  obtain rfl : tags = [] := drain_silent h
  cases hq with
  | between hb => exact hb.grows hgrows
  | last _ htags => exact absurd rfl htags

theorem Between.tagBlock (he : code.Enclosing) (hl : code.Lawful False fun _ => True)
    (hb : Between m outer c []) (hs : Sound False base ms c)
    (h : (c.tagBlock code).diagnostics = #[]) : Between m outer (c.tagBlock code) [] := by
  unfold Cursor.tagBlock at h ⊢
  have hbound := Nat.lt_succ_self c.unclaimed
  have hwalk := Reaches.tagsFrom (w := ⟨c, [], false⟩) hl hbound trivial ⟨Reaches.refl hs, nofun⟩
  have hend := Reaches.endTags ⟨Reaches.refl hwalk.sound, nofun⟩
  exact (Quiet.tagsFrom he hl (.between hb) hs hbound (hend.path.silent h)).endTags h

/-! ## Units of markup -/

/-- A stretch under a context of its own. -/
theorem Grows.within {P : Piece → Prop} (x : Context) (h : Grows P { c with context := x } d) :
    Grows P c { d with context := c.context } := by
  obtain ⟨ps, hps, hP⟩ := h
  refine ⟨ps, ⟨fun hv => ?_, rfl, hps.diagnostics, hps.rest⟩, hP⟩
  have hinside : Views { c with context := x } _ _ _ := hv.same rfl rfl rfl hv.sane
  have houtside := hps.view hinside
  exact houtside.same rfl rfl rfl houtside.sane

theorem grows_singleLine (he : code.Enclosing) (hflag : c.context.ephemeralLineEnding = false) :
    Grows Free c (c.singleLine code) := by
  have hline := (grows_skipTo (c := { c with context.whitespaceSignificant := true }) he hflag
    .newline).trans ((Accepts.eat _ .newline).grows free_leaf)
  have hback := hline.within
  unfold singleLine
  dsimp only
  rw [hline.context]
  exact hback.flush_literal

theorem grows_doubledTransition (hp : c.pending = []) :
    Grows Free c c.doubledTransition ∧ c.doubledTransition.pending = [] := by
  unfold doubledTransition eat
  by_cases hk : c.at? .transition = true
  · rw [if_pos hk]
    exact ⟨(Accepts.bump c).flush hp (by decide) fun ts => free_part (by decide) (free_leaves ts),
      pending_flush _ _⟩
  · rw [if_neg hk]
    exact ⟨.refl c, hp⟩

theorem Between.afterTransition (he : code.Enclosing) (hl : code.Lawful False fun _ => True)
    (hb : Between m outer c []) (hp : c.pending = []) (hs : Sound False base ms c)
    (h : (c.afterTransition code).diagnostics = #[]) :
    Between m outer (c.afterTransition code) [] := by
  unfold Cursor.afterTransition at h ⊢
  split at h
  · have hcolon : Grows Free c (c.bump.flush .metacode) :=
      (Accepts.bump c).flush hp (by decide) fun ts => free_part (by decide) (free_leaves ts)
    exact hb.grows (hcolon.trans (grows_singleLine he (by rw [hcolon.context, hb.context])))
  · exact hb.tagBlock he hl hs h
  · exact hb

theorem Between.blockContent (he : code.Enclosing) (hl : code.Lawful False fun _ => True)
    (hb : Between m outer c []) (hs : Sound False base ms c)
    (h : (c.blockContent code).diagnostics = #[]) : Between m outer (c.blockContent code) [] := by
  unfold Cursor.blockContent at h ⊢
  split at h
  · exact hb.tagBlock he hl hs h
  · have hfirst : Grows Free (c.flush .literal) ((c.flush .literal).bump.flush .markupTransition) :=
      (Accepts.bump _).transition (pending_flush c _)
    have hreach := (((Reaches.refl hs).flush .literal).bump.flush .markupTransition).doubledTransition
    obtain ⟨hdoubled, hp⟩ := grows_doubledTransition
      (pending_flush (c.flush .literal).bump .markupTransition)
    have hgrows := ((Grows.refl c).flush_literal.trans hfirst).trans hdoubled
    exact (hb.grows hgrows).afterTransition he hl hp hreach.sound h
  · exact hb
  · exact absurd h (report_ne_nil _ _ _)

end Cursor

namespace Parse

open Cursor

/-- The tag blocks in the unit of markup. -/
def tagBlocks {σ : Type} (p : Parse σ) : List TagBlock :=
  tagBlocksOf (p.unparsedText?.getD []) ((p.tree.child? .markupBlock).elim [] Tree.pieces)

theorem between_unitEnd (source : String) (h : (unitEnd source).diagnostics = #[]) :
    Between ⟨1⟩ [⟨⟨0⟩, []⟩] (unitEnd source) [] := by
  have hstart : Between ⟨1⟩ [⟨⟨0⟩, []⟩] (unitStart source) [] :=
    ⟨rfl, ⟨1⟩, [], _, views_unitStart source,
      ⟨allSettled_free (by simp), allSettled_free (by simp), trivial⟩, .none []⟩
  have hsound := sound_ofSource False source.toList { options := {} } ()
  have hreach := (Reaches.refl hsound).bumpWhile (·.kind.isTrivia)
  have hblanks := hstart.grows ((Accepts.bumpWhile _ (·.kind.isTrivia)).grows free_leaf)
  exact hblanks.blockContent enclosing_implicit (lawful_implicit False _) hreach.sound h

/-- A parse with nothing to report. -/
theorem tagBlocks_settled {source : String} (h : (unitEnd source).diagnostics = #[]) :
    ∃ p, parse source = .ok p ∧ ∀ b ∈ p.tagBlocks, b.Settled := by
  obtain ⟨n, ps, fs, hview, hsettled, hwaiting⟩ := (between_unitEnd source h).frames
  cases hwaiting with
  | none =>
    obtain ⟨p, block, rest, hp, -, -, htree, hblock, hrest⟩ := parse_of_views hview
    have hafter : p.unparsedText?.getD [] = (unitEnd source).rest := by
      rcases hrest with ⟨rfl, hnone⟩ | ⟨us, ts, rfl, hus, hsome, -⟩
      · rw [hnone, unparsedText?, htree]
        rfl
      · rw [hsome, unparsedText?, htree, ← textOf_map_leaf, ← hus, Tree.textOf_piecesOf]
        rfl
    have hblocks : p.tagBlocks = tagBlocksOf (unitEnd source).rest ps := by
      have hchild : p.tree.child? .markupBlock = some (.node .markupBlock block) := by
        rw [htree]
        rfl
      simp [tagBlocks, hchild, hafter, Tree.pieces, tagBlocksOf, Piece.tagBlocks, Piece.textOf, hblock]
    refine ⟨p, hp, fun b hb => hsettled.1 b ?_⟩
    rwa [← hblocks]

/-- A parse that reports nothing leaves elements that are well formed, or that the `<` of another tag
cuts off, or that are scripts open at the end of the source. -/
theorem wellFormed_of_silent (source : String) : ∃ p, parse source = .ok p ∧ (p.diagnostics = [] →
    ∀ b ∈ p.tagBlocks, b.isElement → (b.WellFormed ↔ ¬ b.CutOff ∧ ¬ b.OpenScript)) := by
  obtain ⟨p, hp, hreports⟩ := parse_reports source
  refine ⟨p, hp, fun hsilent b hb helement => ?_⟩
  rw [hreports, Array.toList_eq_nil_iff] at hsilent
  obtain ⟨q, hq, hsettled⟩ := tagBlocks_settled hsilent
  obtain rfl : p = q := Except.ok.inj (hp.symm.trans hq)
  exact (hsettled b hb).wellFormed_iff helement

/-- The second paragraph is no longer in the unit. -/
theorem wellFormed_of_silent_paired : ∃ p, parse "<p><br/>x</p><p>" = .ok p ∧ p.diagnostics = [] ∧
    (∀ b ∈ p.tagBlocks, b.isElement → (b.WellFormed ↔ ¬ b.CutOff ∧ ¬ b.OpenScript)) ∧
    ∃ b ∈ p.tagBlocks, b.isElement ∧ b.WellFormed := by
  obtain ⟨p, hp, hsilent⟩ := wellFormed_of_silent "<p><br/>x</p><p>"
  obtain ⟨q, hq, hcheck⟩ : ∃ q, parse "<p><br/>x</p><p>" = .ok q ∧ (q.diagnostics.isEmpty &&
      q.tagBlocks.any fun b => b.isElement && b.WellFormed) = true := exists_of_check (by decide +kernel)
  obtain rfl : p = q := Except.ok.inj (hp.symm.trans hq)
  simp only [Bool.and_eq_true, List.isEmpty_iff, List.any_eq_true, decide_eq_true_eq] at hcheck
  exact ⟨p, hp, hcheck.1, hsilent hcheck.1, hcheck.2⟩

/-- A parse of the source reports nothing and has an element that is not well formed. -/
def SilentlyMalformed (source : String) : Prop := ∃ p, parse source = .ok p ∧
  p.diagnostics = [] ∧ ∃ b ∈ p.tagBlocks, b.isElement ∧ ¬ b.WellFormed

theorem silentlyMalformed_of_check {source : String} (h : (parse source).toOption.any (fun p =>
    p.diagnostics.isEmpty && p.tagBlocks.any fun b => b.isElement && !decide b.WellFormed) = true) :
    SilentlyMalformed source := by
  obtain ⟨p, hp, hcheck⟩ := exists_of_check h
  simp only [Bool.and_eq_true, List.isEmpty_iff, List.any_eq_true, Bool.not_eq_true',
    decide_eq_false_iff_not] at hcheck
  exact ⟨p, hp, hcheck⟩

/-- The two silent exits: a script without an end, and a tag that another one cuts off. -/
theorem silent_malformed : SilentlyMalformed "<script>x" ∧ SilentlyMalformed "<p <b></b>" :=
  ⟨silentlyMalformed_of_check (by decide +kernel), silentlyMalformed_of_check (by decide +kernel)⟩

end Parse

end TemplateMarkup
