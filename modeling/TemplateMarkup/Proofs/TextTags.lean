import TemplateMarkup.Proofs.Outcome
import TemplateMarkup.Proofs.Reporting
import TemplateMarkup.Proofs.RoundTrip
import TemplateMarkup.Proofs.TagWalks

/-! # Tags of the text element

An outermost tag of the text element is not a tag but a transition between markup and
code. The start tag sees that no tag is open, and the end tag that none is open behind
the one that it closes. `OpenTags.Paired` is why the two agree: only an outermost tag
of the text element is open without a node. -/

namespace TemplateMarkup

open TemplateMarkup.Tree

/-! ## Open tags without a node -/

namespace OpenTags

variable {o : Options} {tags : OpenTags} {t : OpenTag}

/-- A tag has no node exactly if it is the outermost one and of the text element. -/
def Paired (o : Options) (tags : OpenTags) : Prop :=
  ∀ above t below, tags = above ++ t :: below →
    (t.block? = none ↔ below = [] ∧ o.isTextTag t.name = true)

theorem paired_nil : Paired o [] := by
  intro above t below h
  simp at h

theorem Paired.suffix {rest : OpenTags} (h : Paired o tags) (hrest : rest <:+ tags) :
    Paired o rest := by
  obtain ⟨front, rfl⟩ := hrest
  intro above t below heq
  exact h (front ++ above) t below (by rw [heq, List.append_assoc])

theorem paired_cons : Paired o (t :: tags) ↔
    (t.block? = none ↔ tags = [] ∧ o.isTextTag t.name = true) ∧ Paired o tags := by
  constructor
  · intro h
    exact ⟨h [] t tags rfl, fun above u below heq => h (t :: above) u below (by rw [heq]; rfl)⟩
  · rintro ⟨ht, htags⟩ above u below heq
    cases above with
    | nil =>
      cases heq
      exact ht
    | cons v above =>
      cases heq
      exact htags above u below rfl

end OpenTags

namespace Cursor

variable {σ : Type} {code : EmbeddedCode σ} {c d e : Cursor σ} {f : List Tree}
  {fs : List (List Tree)} {tags rest : OpenTags} {t : OpenTag} {kind place : Kind}

theorem keepsTags_suffix (tags : OpenTags) : KeepsTags fun (_ : Cursor σ) rest => rest <:+ tags where
  report _ _ h := h
  close h := (List.suffix_cons _ _).trans h

/-- No tag breaks the pairs. -/
theorem TagStep.paired (h : c.TagStep tags rest) (htags : tags.Paired c.context.options) :
    rest.Paired c.context.options := by
  cases h with
  | same => exact htags
  | ended hr =>
    have hremoved := (keepsTags_suffix (σ := σ) tags).removeMatching List.suffix_rfl hr
    exact htags.suffix ((List.suffix_append _ _).trans hremoved)
  | text _ _ hname => exact OpenTags.paired_cons.mpr ⟨by simp [hname], OpenTags.paired_nil⟩
  | opened _ hnot => exact OpenTags.paired_cons.mpr ⟨by simpa using hnot, htags⟩

/-- The tag that an end tag closes has its name. -/
theorem removeMatching_name {name : List Char} {endTag : Nat}
    (hr : OpenTags.removeMatching name endTag tags c = (some t, rest, d)) :
    Text.sameIgnoringCase t.name name = true := by
  induction tags generalizing c with
  | nil => cases hr
  | cons u tags ih =>
    unfold OpenTags.removeMatching at hr
    split at hr
    · next hsame =>
      cases hr
      exact hsame
    · dsimp only at hr
      split at hr
      · cases hr
      · exact ih hr

/-! ## What becomes of a tag -/

/-- A node of the kind comes into the innermost open one. -/
def Appends (kind : Kind) (c d : Cursor σ) : Prop :=
  ∃ f fs ts, Shows c (f :: fs) ∧ Shows d ((f ++ [.node kind ts]) :: fs)

/-- A node is open inside the one that was the innermost, and the marker is its own. -/
def Enters (m : Marker) (c d : Cursor σ) : Prop :=
  ∃ f fs ts, Shows c (f :: fs) ∧ Shows d (ts :: f :: fs) ∧
    m.index = (framesEvents (f :: fs)).length

/-- A node of the tokens of a tag of the text element. -/
theorem Collects.appends (h : Collects c.bump d) (hs : Shows c (f :: fs)) (hne : c.ahead ≠ [])
    (kind : Kind) : Appends kind c (d.flush kind) := by
  have hread : Shows d (f :: fs) := h.shows ((Moves.bump c).shows hs)
  have hflush := hread.flush kind
  rw [flushTrees, if_neg (h.pending_ne (pending_bump_ne_nil hne))] at hflush
  exact ⟨f, fs, _, hs, hflush⟩

/-- What is planted in a node of its own. -/
theorem Plants.appends (h : Plants place c.start.2 d) (hs : Shows c (f :: fs)) (hp : c.pending = [])
    (kind : Kind) : Appends kind c (d.complete c.start.1 kind) := by
  obtain ⟨ts, hts, -⟩ := h hs.start.1
  have hnode := hs.node hts kind
  rw [hp, flushTrees_nil, List.nil_append] at hnode
  exact ⟨f, fs, _, hs, hnode⟩

theorem Plants.enters (h : Plants place c.start.2 d) (hs : Shows c (f :: fs)) (hp : c.pending = []) :
    Enters c.start.1 c d := by
  obtain ⟨hstart, hindex⟩ := hs.start
  obtain ⟨ts, hts, -⟩ := h hstart
  rw [hp, flushTrees_nil, List.append_nil] at hts hindex
  exact ⟨f, fs, _, hs, hts, hindex⟩

theorem keepsTag_plants (hc : code.Planting) (c : Cursor σ) : KeepsTag code (Plants .tagBlock c) where
  attributes h := h.trans (plants_attributes hc _)
  eat h := h.moves (.eat _ _)
  closeAngle name range h := h.closeAngle name range
  flush h := h.flush_literal rfl
  voidEndTag name h := h.voidEndTag name
  scriptBody name h := h.scriptBody hc name

/-! ### Start tags -/

/-- An outermost start tag of the text element becomes a transition. It may be open then, without a
node. -/
theorem textStartTag_emits (code : EmbeddedCode σ) (hs : Shows c (f :: fs)) (hstart : c.AtStartTag)
    (htext : tags = [] ∧ c.context.options.isTextTag (c.tagNameAt 1) = true) :
    let w := c.tag code tags
    Appends .markupTransition c w.cursor ∧
      (w.openTags = [] ∨ w.openTags = [⟨c.tagNameAt 1, c.offset, none⟩]) := by
  obtain ⟨rfl, hname⟩ := htext
  have hne : c.ahead ≠ [] := ahead_ne_nil_of_nth rfl hstart.next_ne
  dsimp only
  rw [hstart.tag_eq, startTag]
  dsimp only
  rw [if_pos ⟨rfl, hname⟩]
  obtain ⟨d, hd, hread, hopen⟩ := textStartTag_cases c [] (c.tagNameAt 1)
  rw [hread]
  exact ⟨hd.appends hs hne _, hopen⟩

/-- Any other start tag has a node for its tag block, which is complete, or open as the tag is. -/
theorem startTag_emits (hc : code.Planting) (hs : Shows c (f :: fs)) (hp : c.pending = [])
    (hstart : c.AtStartTag)
    (htext : ¬ (tags = [] ∧ c.context.options.isTextTag (c.tagNameAt 1) = true)) :
    let w := c.tag code tags
    (Appends .tagBlock c w.cursor ∧ w.openTags = tags) ∨
      (Enters c.start.1 c w.cursor ∧
        w.openTags = ⟨c.tagNameAt 1, c.offset, some c.start.1⟩ :: tags) := by
  have hname : Plants .tagBlock c.start.2 c.start.2.bump.bangEscape.eatName :=
    (((Plants.refl _).moves (.bump _)).bangEscape rfl).moves (.eatName _)
  obtain ⟨d, complete, hd, hopen⟩ := restOfStartTag_cases (keepsTag_plants hc c.start.2) hname tags
    c.start.1 (c.tagNameAt 1) c.offset
  dsimp only
  rw [hstart.tag_eq, startTag]
  dsimp only
  rw [if_neg (by simpa using htext)]
  rcases hopen with hopen | ⟨-, hopen⟩
  · rw [hopen]
    exact .inl ⟨hd.appends hs hp .tagBlock, rfl⟩
  · rw [hopen]
    exact .inr ⟨hd.enters hs hp, rfl⟩

/-! ### End tags -/

theorem appends_endTagBlock (hs : Shows c (f :: fs)) (hp : c.pending = []) (name : List Char) :
    Appends .tagBlock c (c.endTagBlock name).2 := by
  have hopen : Plants .tagBlock c.start.2 (c.start.2.bumpN 2).bangEscape :=
    ((Plants.refl _).moves (.bumpN _ 2)).bangEscape rfl
  have hname := (hopen.moves (.eatName _)).moves (.acceptUntil _ [.closeAngle, .openAngle])
  unfold endTagBlock
  dsimp only
  exact (hname.closeAngle name _).appends hs hp _

/-- An end tag becomes a transition if the open tag that it closes has no node, which is then the last
one. Otherwise it is a tag block, in the node of the tag that it closes if there is one. -/
theorem endTag_emits {o : Options} (hwalk : Walking f fs c tags) (hp : c.pending = [])
    (ho : c.context.options = o) (hpaired : tags.Paired o) (hend : c.AtEndTag) :
    let w := c.tag code tags
    ∃ t? d, OpenTags.removeMatching (c.tagNameAt 2) c.offset tags c = (t?, w.openTags, d) ∧
      t?.toList ++ w.openTags <:+ tags ∧
      if t?.any (·.block?.isNone) then w.openTags = [] ∧ Appends .markupTransition d w.cursor
      else ∃ e, Appends .tagBlock d e ∧ w.cursor = t?.elim e (·.close e) := by
  dsimp only
  have hremoved {t? : Option OpenTag} {rest : OpenTags} {d : Cursor σ}
      (hr : OpenTags.removeMatching (c.tagNameAt 2) c.offset tags c = (t?, rest, d)) :
      (∃ g outer, Shows d (g :: outer)) ∧ d.pending = [] ∧ t?.toList ++ rest <:+ tags := by
    obtain ⟨frames, hshows, hnests⟩ := Walking.keepsTags.removeMatching hwalk hr
    obtain ⟨g, outer, rfl⟩ := hnests.exists_cons
    exact ⟨⟨g, outer, hshows⟩, keepsTags_pending.removeMatching hp hr,
      (keepsTags_suffix (σ := σ) tags).removeMatching List.suffix_rfl hr⟩
  -- the tag that is closed has no node if it is outermost and of the text element
  have hnode {t : OpenTag} {rest : OpenTags} {d : Cursor σ}
      (hr : OpenTags.removeMatching (c.tagNameAt 2) c.offset tags c = (some t, rest, d)) :
      t.block? = none ↔ rest = [] ∧ d.context.options.isTextTag (c.tagNameAt 2) = true := by
    have hcontext : d.context = c.context := (keepsTags_context c.context).removeMatching rfl hr
    rw [hcontext, ho, ← Options.isTextTag_congr o (removeMatching_name hr)]
    exact (OpenTags.paired_cons.mp (hpaired.suffix (hremoved hr).2.2)).1
  rw [hend.tag_eq]
  have hends := endTag_ends tags c
  generalize c.endTag tags = w at hends ⊢
  cases hends with
  | bare hbare => exact absurd hbare hend.behind_ne
  | @unmatched rest d _ hr =>
    obtain ⟨⟨g, outer, hshows⟩, hpending, hsuffix⟩ := hremoved hr
    refine ⟨none, d, hr, hsuffix, ?_⟩
    rw [if_neg (by simp)]
    dsimp only
    exact ⟨_, appends_endTagBlock hshows hpending _, rfl⟩
  | @text t d _ hr htext =>
    obtain ⟨⟨g, outer, hshows⟩, hpending, hsuffix⟩ := hremoved hr
    have hnone : t.block? = none := (hnode hr).mpr ⟨rfl, htext⟩
    have hclose : t.close d = d := by rw [OpenTag.close, hnone]
    have hne : d.ahead ≠ [] := by
      have hahead := ahead_removeMatching (c.tagNameAt 2) c.offset tags c
      rw [hr] at hahead
      dsimp only at hahead
      rw [hahead]
      exact ahead_ne_nil_of_nth rfl hend.behind_ne
    refine ⟨some t, d, hr, hsuffix, ?_⟩
    rw [if_pos (by simp [hnone]), hclose]
    obtain ⟨e, he, hread⟩ := textEndTag_cases d (c.tagNameAt 2)
    rw [hread]
    exact ⟨rfl, he.appends hshows hne _⟩
  | @element t rest d _ hr hother =>
    obtain ⟨⟨g, outer, hshows⟩, hpending, hsuffix⟩ := hremoved hr
    have hsome : t.block?.isNone = false := by
      rw [Option.isNone_eq_false_iff, Option.isSome_iff_ne_none]
      intro hnone
      obtain ⟨hrest, htext⟩ := (hnode hr).mp hnone
      rw [hother hrest] at htext
      cases htext
    refine ⟨some t, d, hr, hsuffix, ?_⟩
    rw [if_neg (by simp [hsome])]
    dsimp only
    exact ⟨_, appends_endTagBlock hshows hpending _, rfl⟩

/-- What looks like an end tag where the source ends. -/
theorem slash_emits (hs : Shows c (f :: fs)) (hp : c.pending = []) (hslash : c.nth 1 = .slash)
    (hend : c.nth 2 = .endOfInput) (tags : OpenTags) :
    let w := c.tag code tags
    Appends .tagBlock c w.cursor ∧ w.openTags = tags := by
  have htag : c.tag code tags = c.endTag tags := by
    rw [tag, hslash, if_neg (by decide), if_neg (by simp [atSpecialTag, hslash]), if_pos rfl]
  have hopen : Plants .tagBlock c.start.2 (c.start.2.bumpN 2) := (Plants.refl _).moves (.bumpN _ 2)
  dsimp only
  rw [htag, endTag, if_pos hend]
  exact ⟨hopen.appends hs hp _, rfl⟩

/-! ### A start tag with a slash -/

/-- A slash behind the name and spacing, whatever comes then, leaves the tag closed. -/
theorem textStartTag_slash {lt slash : Token} {ns gap line : List Token}
    (ha : c.ahead = lt :: (ns ++ (gap ++ slash :: line))) (hns : ∀ t ∈ ns, t.kind = .text)
    (hgap : ∀ t ∈ gap, t.kind.isTrivia = true) (hslash : slash.kind = .slash) (tags : OpenTags)
    (name : List Char) : (c.textStartTag tags name).openTags = tags := by
  have hahead : c.bump.ahead = ns ++ (gap ++ slash :: line) := by rw [ahead_bump, ha, List.tail_cons]
  have hstop : ∀ t ∈ (gap ++ slash :: line).head?, (t.kind == .text) = false := by
    cases gap with
    | nil =>
      rintro t ⟨⟩
      rw [hslash]
      rfl
    | cons t gap =>
      rintro u ⟨⟩
      have ht := hgap t (List.mem_cons_self ..)
      rw [beq_eq_false_iff_ne]
      intro hk
      rw [hk] at ht
      cases ht
  have hname : c.bump.eatName = c.bump.bumpN ns.length :=
    bumpWhile_eq hahead (by simpa using hns) hstop
  have hbehind : (c.bump.bumpN ns.length).ahead = gap ++ slash :: line := by
    rw [ahead_bumpN, hahead, List.drop_left]
  have hspacing : (c.bump.bumpN ns.length).spacing 0 = gap.length := by
    refine runLength_eq hbehind hgap ?_
    rintro t ⟨⟩
    rw [hslash]
    rfl
  have hdrop : (c.bump.bumpN ns.length).ahead.drop gap.length = slash :: line := by
    rw [hbehind, List.drop_left]
  have hat : (c.bump.bumpN ns.length).nth gap.length = .slash := (nth_eq hdrop).trans hslash
  unfold textStartTag
  dsimp only
  rw [hname, hspacing, if_pos hat]

/-! ### The whole walk -/

theorem Walking.next (hc : code.Planting) {w : TagWalk σ} (h : WalkShows f fs w) :
    Walking f fs (w.next code) w.openTags :=
  h.scan fun _ hplace => ((Plants.refl _).skipTo hc hplace _).flush_literal hplace

theorem Walking.visits (hc : code.Planting) {w v : TagWalk σ} (h : WalkShows f fs w)
    (hv : TagWalk.Visits code w v) : WalkShows f fs v := by
  induction hv with
  | start => exact h
  | step _ _ _ ih => exact (Walking.next hc ih).tag hc

end Cursor

/-! ## Where a walk begins -/

namespace Parse

open Cursor

variable {σ : Type} {code : EmbeddedCode σ} {options : Options} {host : σ} {source : String}

/-- The cursor where a parse looks for its first tag: behind blank text, and behind an `@` there. -/
def tagStart (options : Options) (host : σ) (source : String) : Cursor σ :=
  let c := (blockStart options host source).bumpWhile (·.kind.isTrivia)
  if c.current = .transition then
    ((c.flush .literal).bump.flush .markupTransition).doubledTransition
  else c

/-- A parse that begins with a tag walks over tags from there. -/
theorem blockEnd_of_tagStart (h : (tagStart options host source).current = .openAngle) :
    blockEnd options code host source = (tagStart options host source).tagBlock code := by
  unfold blockEnd blockContent
  unfold tagStart at h ⊢
  dsimp only at h ⊢
  split at h
  · next hk =>
    rw [hk, if_pos rfl, afterTransition, h]
  · rw [h, if_neg (by decide)]

theorem shows_tagStart (options : Options) (host : σ) (source : String) :
    ∃ f, (tagStart options host source).Shows [f, []] := by
  have hblanks := (Moves.bumpWhile (blockStart options host source) (·.kind.isTrivia)).shows
    (shows_blockStart options host source)
  have hdoubled {c : Cursor σ} {f : List Tree} (hs : c.Shows [f, []]) :
      ∃ f, c.doubledTransition.Shows [f, []] := by
    have heat := (Moves.eat c .transition).shows hs
    unfold doubledTransition
    dsimp only
    split
    · exact ⟨_, heat.flush .metacode⟩
    · exact ⟨_, heat⟩
  unfold tagStart
  dsimp only
  split
  · exact hdoubled (((Moves.bump _).shows (hblanks.flush .literal)).flush .markupTransition)
  · exact ⟨_, hblanks⟩

end Parse

/-! ## The whole walk -/

namespace TagWalk

open Cursor

variable {σ : Type} {code : EmbeddedCode σ} {c : Cursor σ} {f : List Tree} {fs : List (List Tree)}
  {v : TagWalk σ} {t : OpenTag}

/-- The start tag that is read here stays open. Without a node it became a transition, and else its
node is open too. -/
structure Pushes (code : EmbeddedCode σ) (u : TagWalk σ) (t : OpenTag) : Prop where
  atStartTag : (u.next code).AtStartTag
  openTags : (u.step code).openTags = t :: u.openTags
  emitted : match t.block? with
    | none => Appends .markupTransition (u.next code) (u.step code).cursor
    | some m => Enters m (u.next code) (u.step code).cursor

/-- The walk has read the start tag of every open tag. -/
theorem exists_pushes (hc : code.Planting) (hk : code.KeepsOptions) (hs : c.Shows (f :: fs))
    (hv : Visits code ⟨c, [], false⟩ v) :
    ∀ t ∈ v.openTags, ∃ u, Visits code ⟨c, [], false⟩ u ∧ u.Pushes code t := by
  induction hv with
  | start => exact nofun
  | @step v hv _ _ ih =>
    have hwalk : Walking f fs (v.next code) v.openTags :=
      Walking.next hc (Walking.visits hc ((Walking.start hs).walk false) hv)
    obtain ⟨frames, hshows, hnests⟩ := hwalk
    obtain ⟨g, outer, rfl⟩ := hnests.exists_cons
    have hstep : (v.next code).TagStep v.openTags (v.step code).openTags := (tag_step hk _ _).2
    intro t ht
    generalize hrest : (v.step code).openTags = rest at hstep ht
    cases hstep with
    | same => exact ih t ht
    | ended hr =>
      have hmem : t ∈ v.openTags := mem_removeMatching (by rw [hr]; exact ht)
      exact ih t hmem
    | text hstart htags hname =>
      obtain rfl := List.mem_singleton.mp ht
      exact ⟨v, hv, hstart, by rw [hrest, htags],
        (textStartTag_emits code hshows hstart ⟨htags, hname⟩).1⟩
    | opened hstart hnot =>
      rcases List.mem_cons.mp ht with rfl | ht
      · rcases startTag_emits hc hshows (pending_flush _ _) hstart hnot with ⟨-, hsame⟩ | ⟨henters, -⟩
        · exact absurd (hrest.symm.trans hsame) (List.cons_ne_self _ _)
        · exact ⟨v, hv, hstart, hrest, henters⟩
      · exact ih t ht

/-- A unit that is one start tag of the text element with a slash wants no end tag. -/
theorem tagBlock_slash (hm : code.Mute) (hk : code.KeepsOptions) {lt slash : Token}
    {ns gap line : List Token} (hstart : (next code ⟨c, [], false⟩).AtStartTag)
    (htext : c.context.options.isTextTag ((next code ⟨c, [], false⟩).tagNameAt 1) = true)
    (ha : (next code ⟨c, [], false⟩).ahead = lt :: (ns ++ (gap ++ slash :: line)))
    (hns : ∀ t ∈ ns, t.kind = .text) (hgap : ∀ t ∈ gap, t.kind.isTrivia = true)
    (hslash : slash.kind = .slash) :
    (step code ⟨c, [], false⟩).openTags = [] ∧ ∀ x ∈ (c.tagBlock code).diagnostics.toList,
      x ∈ c.diagnostics.toList ∨ x.problem = .textTagHasAttributes := by
  have hoptions := options_next hk ⟨c, [], false⟩
  have hquiet : (next code ⟨c, [], false⟩).diagnostics = c.diagnostics :=
    (diagnostics_flush _ _).trans (diagnostics_skipTo hm c _)
  have hatEnd : (next code ⟨c, [], false⟩).atEnd = false := by simp [atEnd, ha]
  have htag : step code ⟨c, [], false⟩ = (next code ⟨c, [], false⟩).textStartTag []
      ((next code ⟨c, [], false⟩).tagNameAt 1) := by
    rw [step, hstart.tag_eq, startTag]
    dsimp only
    rw [if_pos ⟨rfl, by rw [hoptions, htext]⟩]
  have hopen : (step code ⟨c, [], false⟩).openTags = [] := by
    rw [htag]
    exact textStartTag_slash ha hns hgap hslash [] _
  have hunit : c.tagBlock code = endTags (step code ⟨c, [], false⟩) := by
    have hnext : (c.skipTo code .openAngle).flush .literal = next code ⟨c, [], false⟩ := rfl
    have hstep : (next code ⟨c, [], false⟩).tag code [] = step code ⟨c, [], false⟩ := rfl
    rw [tagBlock, tagsFrom]
    dsimp only
    rw [hnext, hatEnd, if_neg Bool.false_ne_true, hstep, hopen, if_pos List.isEmpty_nil]
  refine ⟨hopen, fun x hx => ?_⟩
  have hend : (endTags (step code ⟨c, [], false⟩)).diagnostics =
      (step code ⟨c, [], false⟩).cursor.diagnostics := by
    unfold endTags
    rw [hopen]
    dsimp only [OpenTags.drain]
    split <;> split <;> simp
  obtain ⟨d, hd, hread, -⟩ := textStartTag_cases (next code ⟨c, [], false⟩) []
    ((next code ⟨c, [], false⟩).tagNameAt 1)
  rw [hunit, hend, htag, hread, diagnostics_flush] at hx
  have hreports := hd.reports x hx
  rwa [diagnostics_bump, hquiet] at hreports

/-- The tags of the text element in every state of a walk. An open tag has no node if and only if it
is the outermost one and of the text element, and its start tag became a transition then. The end tag
that closes such a tag is a transition too, and every other tag is a tag block. A start tag that is a
transition, with a slash behind its name and spacing, does not stay open whatever follows, and no end
tag is missed. -/
theorem textTags_paired (hs : c.Shows (f :: fs)) :
    let o := c.context.options
    let w : TagWalk σ := ⟨c, [], false⟩
    (∀ v, Visits .implicit w v →
      let d := v.next .implicit
      let u := v.step .implicit
      v.openTags.Paired o ∧
      (∀ t ∈ v.openTags, ∃ x, Visits .implicit w x ∧ x.Pushes .implicit t) ∧
      (d.AtStartTag → v.openTags = [] ∧ o.isTextTag (d.tagNameAt 1) = true →
        Appends .markupTransition d u.cursor ∧
          (u.openTags = [] ∨ u.openTags = [⟨d.tagNameAt 1, d.offset, none⟩])) ∧
      (d.AtStartTag → ¬ (v.openTags = [] ∧ o.isTextTag (d.tagNameAt 1) = true) →
        (Appends .tagBlock d u.cursor ∧ u.openTags = v.openTags) ∨
          (Enters d.start.1 d u.cursor ∧
            u.openTags = ⟨d.tagNameAt 1, d.offset, some d.start.1⟩ :: v.openTags)) ∧
      (d.AtEndTag → ∃ t? e,
        OpenTags.removeMatching (d.tagNameAt 2) d.offset v.openTags d = (t?, u.openTags, e) ∧
          t?.toList ++ u.openTags <:+ v.openTags ∧
          if t?.any (·.block?.isNone) then u.openTags = [] ∧ Appends .markupTransition e u.cursor
          else ∃ g, Appends .tagBlock e g ∧ u.cursor = t?.elim g (·.close g)) ∧
      (d.nth 1 = .slash → d.nth 2 = .endOfInput →
        Appends .tagBlock d u.cursor ∧ u.openTags = v.openTags)) ∧
    let d := w.next .implicit
    ∀ lt ns gap slash line, d.AtStartTag → o.isTextTag (d.tagNameAt 1) = true →
      d.ahead = lt :: (ns ++ (gap ++ slash :: line)) → (∀ t ∈ ns, t.kind = .text) →
      (∀ t ∈ gap, t.kind.isTrivia = true) → slash.kind = .slash →
        (w.step .implicit).openTags = [] ∧ ∀ x ∈ (c.tagBlock .implicit).diagnostics.toList,
          x ∈ c.diagnostics.toList ∨ x.problem = .textTagHasAttributes := by
  intro o w
  refine ⟨fun v hv => ?_, fun lt ns gap slash line hstart htext ha hns hgap hslash => ?_⟩
  · have hpaired : v.openTags.Paired o := by
      refine hv.openTags keepsOptions_implicit (P := fun tags => tags.Paired o) ?_ OpenTags.paired_nil
      intro d tags rest hd hstep htags
      have hsame : o = d.context.options := hd.symm
      rw [hsame] at htags ⊢
      exact hstep.paired htags
    have hoptions : (v.next .implicit).context.options = o :=
      (options_next keepsOptions_implicit v).trans (hv.options keepsOptions_implicit)
    have hwalk : Walking f fs (v.next .implicit) v.openTags := Walking.next planting_implicit
      (Walking.visits planting_implicit ((Walking.start hs).walk false) hv)
    have hpending : (v.next .implicit).pending = [] := pending_flush _ _
    obtain ⟨frames, hshows, hnests⟩ := hwalk
    obtain ⟨g, outer, rfl⟩ := hnests.exists_cons
    refine ⟨hpaired, exists_pushes planting_implicit keepsOptions_implicit hs hv,
      fun hstart htext => ?_, fun hstart htext => ?_, fun hend => ?_, fun hslash hend => ?_⟩
    · rw [← hoptions] at htext
      exact textStartTag_emits .implicit hshows hstart htext
    · rw [← hoptions] at htext
      exact startTag_emits planting_implicit hshows hpending hstart htext
    · exact endTag_emits ⟨_, hshows, hnests⟩ hpending hoptions hpaired hend
    · exact slash_emits hshows hpending hslash hend v.openTags
  · exact tagBlock_slash mute_implicit keepsOptions_implicit hstart htext ha hns hgap hslash

/-- A tag of the text element inside another is a tag block, and the one around both is not. -/
theorem textTags_paired_nested :
    let w : TagWalk Unit := ⟨Parse.tagStart {} () "<text><b><text/></b></text>", [], false⟩
    (∃ f, w.cursor.Shows [f, []]) ∧
    (∃ v, Visits .implicit w v ∧ v.openTags.map (·.name) = ["b".toList, "text".toList] ∧
      v.openTags.Paired {} ∧ (v.next .implicit).AtStartTag ∧
      (v.next .implicit).tagNameAt 1 = "text".toList ∧
      Appends .tagBlock (v.next .implicit) (v.step .implicit).cursor) ∧
    (∃ v e, Visits .implicit w v ∧ (v.next .implicit).AtEndTag ∧ (v.step .implicit).openTags = [] ∧
      Appends .markupTransition e (v.step .implicit).cursor) ∧
    ∀ x ∈ (Parse.unitEnd "\n@<text / <b>").diagnostics.toList, x.problem = .textTagHasAttributes := by
  intro w
  obtain ⟨f, hs⟩ := Parse.shows_tagStart {} () "<text><b><text/></b></text>"
  obtain ⟨g, ht⟩ := Parse.shows_tagStart {} () "\n@<text / <b>"
  obtain ⟨hstates, -⟩ := textTags_paired hs
  obtain ⟨-, hslash⟩ := textTags_paired ht
  have htext : Visits .implicit w (w.step .implicit) := .step .start (.inl rfl) (by decide +kernel)
  have hbold := htext.step (.inr (by decide +kernel)) (by decide +kernel)
  have hinner := hbold.step (.inr (by decide +kernel)) (by decide +kernel)
  have hend := hinner.step (.inr (by decide +kernel)) (by decide +kernel)
  refine ⟨⟨f, hs⟩, ?_, ?_, ?_⟩
  · obtain ⟨hpaired, -, -, hread, -⟩ := hstates _ hbold
    have hstart : (((w.step .implicit).step .implicit).next .implicit).AtStartTag :=
      ⟨by decide +kernel, by decide +kernel, by decide +kernel⟩
    rcases hread hstart (by decide +kernel) with ⟨happends, -⟩ | ⟨-, hopen⟩
    · exact ⟨_, hbold, by decide +kernel, hpaired, hstart, by decide +kernel, happends⟩
    · have hlength := congrArg List.length hopen
      exact absurd hlength (by decide +kernel)
  · obtain ⟨-, -, -, -, hread, -⟩ := hstates _ hend
    have hatEnd : ((((((w.step .implicit).step .implicit).step .implicit).step .implicit)).next
        .implicit).AtEndTag := ⟨by decide +kernel, by decide +kernel⟩
    obtain ⟨t?, e, hr, -, hemits⟩ := hread hatEnd
    have hnone := congrArg (fun r => r.1.any (·.block?.isNone)) hr
    rw [if_pos (hnone.symm.trans (by decide +kernel))] at hemits
    exact ⟨_, e, hend, hatEnd, hemits⟩
  · obtain ⟨-, hreports⟩ := hslash ⟨.openAngle, ['<']⟩ [⟨.text, "text".toList⟩] [⟨.whitespace, [' ']⟩]
      ⟨.slash, ['/']⟩ (Token.lex " <b>".toList)
      ⟨by decide +kernel, by decide +kernel, by decide +kernel⟩
      (by decide +kernel) (by decide +kernel) (by decide) (by decide) rfl
    have hunit : Parse.unitEnd "\n@<text / <b>" =
        (Parse.tagStart {} () "\n@<text / <b>").tagBlock .implicit :=
      Parse.blockEnd_of_tagStart (by decide +kernel)
    rw [hunit]
    intro x hx
    rcases hreports x hx with hx | hx
    · have hnone : (Parse.tagStart {} () "\n@<text / <b>").diagnostics.toList = [] := by decide +kernel
      rw [hnone] at hx
      cases hx
    · exact hx

/-- An end tag that closes no open tag takes all of them off. It is a tag block all the same, even if
one of the text element is taken off that has no node. A tag of the text element inside another needs
an end tag unless its slash stands in front of the closing angle. And where the name of that element
begins with an exclamation mark, its tags are not read past that. -/
theorem textTags_unpaired :
    let v : TagWalk Unit := step .implicit ⟨Parse.tagStart {} () "<text></b>", [], false⟩
    (v.openTags = [⟨"text".toList, 0, none⟩] ∧ (v.next .implicit).AtEndTag ∧
      (v.step .implicit).openTags = [] ∧ (v.step .implicit).cursor.lastNode = some .tagBlock) ∧
    (∃ p, parse "<p><text / x></p>" = .ok p ∧
      p.diagnostics.map (·.problem) = [.missingEndTag "text".toList]) ∧
    ∃ p, parseBlock { textTagName := "!text" } .implicit () "<!text/>" = .ok p ∧
      p.diagnostics.map (·.problem) = [.textTagHasAttributes, .missingEndTag "!text".toList] := by
  intro v
  have hend : (v.next .implicit).AtEndTag := ⟨by decide +kernel, by decide +kernel⟩
  refine ⟨⟨by decide +kernel, hend, by decide +kernel, by decide +kernel⟩, ?_, ?_⟩
  · obtain ⟨p, hp, hcheck⟩ : ∃ p, parse "<p><text / x></p>" = .ok p ∧
        decide (p.diagnostics.map (·.problem) = [.missingEndTag "text".toList]) = true :=
      Parse.exists_of_check (by decide +kernel)
    exact ⟨p, hp, of_decide_eq_true hcheck⟩
  · obtain ⟨p, hp, hcheck⟩ : ∃ p,
        parseBlock { textTagName := "!text" } .implicit () "<!text/>" = .ok p ∧
        decide (p.diagnostics.map (·.problem) =
          [.textTagHasAttributes, .missingEndTag "!text".toList]) = true :=
      Parse.exists_of_check (by decide +kernel)
    exact ⟨p, hp, of_decide_eq_true hcheck⟩

end TagWalk

end TemplateMarkup
