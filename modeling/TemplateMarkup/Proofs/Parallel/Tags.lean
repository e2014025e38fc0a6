import TemplateMarkup.Proofs.Parallel.Attributes

/-! # Tags of two parses side by side

Names are compared without their case, so both parses match the same end tags
with the same start tags. The open tags of the two correspond one by one, and
the nodes they own are closed in the same order. -/

namespace TemplateMarkup

/-! ## Open tags -/

namespace Comparison

variable {k : Comparison} {a b : List Char} {tags tags' : OpenTags} {own : List (Marker × Marker)}

/-- Open tags that correspond one by one, with the nodes that they own. -/
inductive Open (k : Comparison) : OpenTags → OpenTags → List (Marker × Marker) → Prop
  | nil : Open k [] [] []
  /-- A tag of the text element, which owns no node. -/
  | text {t u : OpenTag} {tags tags' : OpenTags} {own : List (Marker × Marker)} :
      k.Same t.name u.name → k.Offsets (t.start + 1) (u.start + 1) → t.block? = none →
      u.block? = none → Open k tags tags' own → Open k (t :: tags) (u :: tags') own
  | element {t u : OpenTag} {m n : Marker} {tags tags' : OpenTags} {own : List (Marker × Marker)} :
      k.Same t.name u.name → k.Offsets (t.start + 1) (u.start + 1) → t.block? = some m →
      u.block? = some n → Open k tags tags' own → Open k (t :: tags) (u :: tags') ((m, n) :: own)

theorem Open.isEmpty_eq (h : k.Open tags tags' own) : tags'.isEmpty = tags.isEmpty := by
  cases h <;> rfl

theorem Open.named {t u : OpenTag} (h : k.Open (t :: tags) (u :: tags') own) :
    k.Same t.name u.name ∧ k.Offsets (t.start + 1) (u.start + 1) := by
  cases h with
  | text hname hstart | element hname hstart => exact ⟨hname, hstart⟩

theorem isTextTag_eq (h : k.Same a b) : k.otherOptions.isTextTag b = k.options.isTextTag a :=
  h.sameIgnoringCase (.refl _)

theorem isScriptTag_eq (h : k.Same a b) : k.otherOptions.isScriptTag b = k.options.isScriptTag a :=
  h.sameIgnoringCase (.refl _)

theorem isVoidElement_eq (h : k.Same a b) :
    k.otherOptions.isVoidElement b = k.options.isVoidElement a := by
  unfold Options.isVoidElement
  simp only [(Likeness.Same.refl _).sameIgnoringCase h]
  rfl

end Comparison

namespace Cursor

open Comparison

variable {σ : Type} {k : Comparison} {ms own : List (Marker × Marker)} {c d : Cursor σ}
  {code : EmbeddedCode σ} {name name' : List Char} {tags tags' : OpenTags} {start start' : Nat}

/-- What is taken off the open tags for two end tags. -/
inductive Removed (k : Comparison) (ms : List (Marker × Marker)) :
    Option OpenTag × OpenTags × Cursor σ → Option OpenTag × OpenTags × Cursor σ → Prop
  | matched {t u : OpenTag} {tags tags' : OpenTags} {own : List (Marker × Marker)}
      {c d : Cursor σ} : k.Open (t :: tags) (u :: tags') own → Parallel k (own ++ ms) c d →
      Removed k ms (some t, tags, c) (some u, tags', d)
  | unmatched {c d : Cursor σ} : Parallel k ms c d → Removed k ms (none, [], c) (none, [], d)

namespace Parallel

theorem otherOptions (h : Parallel k ms c d) : d.context.options = k.otherOptions := by
  rw [h.context]

theorem closeTag {t u : OpenTag} (ho : k.Open (t :: tags) (u :: tags') own)
    (h : Parallel k (own ++ ms) c d) :
    ∃ own', k.Open tags tags' own' ∧ Parallel k (own' ++ ms) (t.close c) (u.close d) := by
  unfold OpenTag.close
  cases ho with
  | text _ _ ht hu ho =>
    rw [ht, hu]
    exact ⟨_, ho, h⟩
  | element _ _ ht hu ho =>
    rw [ht, hu]
    exact ⟨_, ho, h.complete .tagBlock⟩

theorem closeUnended {t u : OpenTag} (ho : k.Open (t :: tags) (u :: tags') own)
    (h : Parallel k (own ++ ms) c d) :
    ∃ own', k.Open tags tags' own' ∧
      Parallel k (own' ++ ms) (t.closeUnended c) (u.closeUnended d) := by
  obtain ⟨hname, hstart⟩ := ho.named
  exact closeTag ho (h.report (congrArg Problem.missingEndTag hname) (ranges_ofText hstart hname))

theorem removeMatching {endTag endTag' : Nat} (hname : k.Same name name')
    (hend : k.Offsets (endTag + 2) (endTag' + 2)) (ho : k.Open tags tags' own)
    (h : Parallel k (own ++ ms) c d) :
    Removed k ms (OpenTags.removeMatching name endTag tags c)
      (OpenTags.removeMatching name' endTag' tags' d) := by
  induction tags generalizing tags' own c d with
  | nil =>
    cases ho
    exact .unmatched (h.report (congrArg Problem.unexpectedEndTag hname)
      (ranges_ofText hend hname))
  | cons t rest ih =>
    cases tags' with
    | nil => cases ho
    | cons u rest' =>
      obtain ⟨own', hrest, hclosed⟩ := h.closeUnended ho
      unfold OpenTags.removeMatching
      dsimp only
      rw [ho.named.1.sameIgnoringCase hname, hrest.isEmpty_eq]
      split
      · exact .matched ho h
      · split
        · next hempty =>
          obtain rfl := List.isEmpty_iff.mp hempty
          cases hrest
          exact .unmatched hclosed
        · exact ih hrest hclosed

theorem foldl_close (ho : k.Open tags tags' own) (h : Parallel k (own ++ ms) c d) :
    Parallel k ms (tags.foldl (fun c t => t.close c) c) (tags'.foldl (fun d t => t.close d) d) := by
  induction tags generalizing tags' own c d with
  | nil =>
    cases ho
    exact h
  | cons t rest ih =>
    cases tags' with
    | nil => cases ho
    | cons u rest' =>
      obtain ⟨own', hrest, hclosed⟩ := h.closeTag ho
      rw [List.foldl_cons, List.foldl_cons]
      exact ih hrest hclosed

theorem drain (ho : k.Open tags tags' own) (h : Parallel k (own ++ ms) c d) :
    (tags'.drain d).1 = (tags.drain c).1 ∧ Parallel k ms (tags.drain c).2 (tags'.drain d).2 := by
  cases tags with
  | nil =>
    cases ho
    exact ⟨rfl, h⟩
  | cons t rest =>
    cases tags' with
    | nil => cases ho
    | cons u rest' =>
      obtain ⟨own', hrest, hclosed⟩ := h.closeUnended ho
      exact ⟨rfl, hclosed.foldl_close hrest⟩

/-! ## Names and ends of tags -/

theorem bangEscapeAt (h : Parallel k ms c d) (n : Nat) : d.bangEscapeAt n = c.bangEscapeAt n := by
  unfold Cursor.bangEscapeAt
  rw [h.nth, h.nth]
  by_cases htext : c.nth (n + 1) = .text
  · rw [(h.nthText (by rw [htext]; decide)).sameIgnoringCase (.refl "DOCTYPE".toList)]
  · have hno : (c.nth (n + 1) == Kind.text) = false := by simpa using htext
    simp [hno]

theorem textRunAt (h : Parallel k ms c d) (n : Nat) : k.Same (c.textRunAt n) (d.textRunAt n) := by
  have hrun := (h.ahead.drop n).takeWhile (k.blind_kind (· == .text))
  refine hrun.same fun t ht hnewline => ?_
  have htext := List.all_takeWhile (l := c.ahead.drop n) (p := fun t => t.kind == .text)
  have hkind := List.all_eq_true.mp htext t ht
  rw [hnewline] at hkind
  cases hkind

theorem tagNameAt (h : Parallel k ms c d) (n : Nat) : k.Same (c.tagNameAt n) (d.tagNameAt n) := by
  unfold Cursor.tagNameAt
  rw [h.bangEscapeAt]
  split
  · exact (Likeness.Same.refl ['!']).append (h.textRunAt (n + 1))
  · exact h.textRunAt n

theorem bangEscape (h : Parallel k ms c d) : Parallel k ms c.bangEscape d.bangEscape := by
  unfold Cursor.bangEscape
  rw [h.bangEscapeAt]
  split
  · exact (h.flush .literal).bump.flush .metacode
  · exact h

theorem eatName (h : Parallel k ms c d) : Parallel k ms c.eatName d.eatName :=
  h.bumpWhile (k.blind_kind (· == .text))

theorem spacing (h : Parallel k ms c d) (n : Nat) : d.spacing n = c.spacing n :=
  h.runLength (k.blind_kind Kind.isTrivia) n

theorem closeAngle {r s : Range} (hname : k.Same name name') (hr : k.Ranges r s)
    (h : Parallel k ms c d) : (d.closeAngle name' s).1 = (c.closeAngle name r).1 ∧
      Parallel k ms (c.closeAngle name r).2 (d.closeAngle name' s).2 := by
  obtain ⟨heq, heat⟩ := h.eat .closeAngle
  have hproblem : (Problem.unfinishedTag name).mapName (·.map k.fold) =
      (Problem.unfinishedTag name').mapName (·.map k.fold) := congrArg Problem.unfinishedTag hname
  unfold Cursor.closeAngle
  dsimp only
  rw [heq]
  split
  · exact ⟨rfl, heat⟩
  · exact ⟨rfl, (heat.report hproblem hr).missing (by decide)⟩

theorem recoverTextTag (h : Parallel k ms c d) : Parallel k ms c.recoverTextTag d.recoverTextTag :=
  ((h.acceptUntil [.closeAngle, .newline]).eat .closeAngle).2

theorem endTagBlock (hname : k.Same name name') (hk : c.current = .openAngle)
    (hs : c.nth 1 = .slash) (h : Parallel k ms c d) :
    (d.endTagBlock name').1 = (c.endTagBlock name).1 ∧
      Parallel k ms (c.endTagBlock name).2 (d.endTagBlock name').2 := by
  have hread := (h.start.bumpN 2).bangEscape.eatName.acceptUntil [.closeAngle, .openAngle]
  have hclose := hread.closeAngle hname (ranges_ofText (h.offset_endName hk hs) hname)
  unfold Cursor.endTagBlock
  dsimp only
  exact ⟨hclose.1, hclose.2.complete .tagBlock⟩

theorem textEndTag (hname : k.Same name name') (hk : c.current = .openAngle)
    (hs : c.nth 1 = .slash) (h : Parallel k ms c d) :
    Parallel k ms (c.textEndTag name) (d.textEndTag name') := by
  obtain ⟨heq, heat⟩ := (h.bumpN 2).eatName.eat .closeAngle
  unfold Cursor.textEndTag
  dsimp only
  rw [heq]
  split
  · exact heat.flush .markupTransition
  · exact (heat.report rfl (ranges_ofText (h.offset_endName hk hs) hname)).recoverTextTag.flush
      .markupTransition

theorem voidEndTag (hname : k.Same name name') (h : Parallel k ms c d) :
    Parallel k ms (c.voidEndTag name) (d.voidEndTag name') := by
  unfold Cursor.voidEndTag
  dsimp only
  rw [h.spacing, h.nth, h.nth, (h.tagNameAt _).sameIgnoringCase hname]
  split
  · exact ((((h.bumpN _).eatName).acceptUntil [.closeAngle, .openAngle]).eat .closeAngle).2.flush
      .literal
  · exact h

theorem scriptBodyFrom (ha : code.Agrees k) (hname : k.Same name name') {bound bound' : Nat}
    (hc : (Cursor.scriptBodyFrom code name bound c).fault = none)
    (hd : (Cursor.scriptBodyFrom code name' bound' d).fault = none) (h : Parallel k ms c d) :
    Parallel k ms (Cursor.scriptBodyFrom code name bound c)
      (Cursor.scriptBodyFrom code name' bound' d) := by
  induction bound generalizing bound' c d with
  | zero => simp [Cursor.scriptBodyFrom, fail] at hc
  | succ bound ih =>
    cases bound' with
    | zero => simp [Cursor.scriptBodyFrom, fail] at hd
    | succ bound' =>
      have hs := h.skipTo ha .openAngle
      have hat := at_skipTo ha.lawful h.left .openAngle
      revert hc hd
      unfold Cursor.scriptBodyFrom
      dsimp only
      rw [hs.atEnd, hs.nth, (hs.tagNameAt 2).sameIgnoringCase hname]
      split
      · exact fun _ _ => hs
      · next hend =>
        have hk := hat.resolve_left (ahead_ne_nil_of_not_atEnd hend)
        split
        · next hclose =>
          refine fun _ _ => ?_
          have hread := ((hs.start.bumpN 2).eatName).skipTo ha .closeAngle
          exact (hread.closeAngle hname
            (ranges_ofText (hs.offset_endName hk hclose.1) hname)).2.complete .tagBlock
        · exact fun hc hd => ih hc hd hs.bump

theorem scriptBody (ha : code.Agrees k) (hname : k.Same name name') (h : Parallel k ms c d) :
    Parallel k ms (c.scriptBody code name) (d.scriptBody code name') :=
  h.scriptBodyFrom ha hname ((Reaches.refl h.left).scriptBody ha.lawful name trivial).sound.fault
    ((Reaches.refl h.right).scriptBody ha.lawful name' trivial).sound.fault

end Parallel

/-! ## Walks -/

/-- Two walks over tags that have come equally far. -/
structure ParallelWalks (k : Comparison) (ms : List (Marker × Marker)) (v w : TagWalk σ) : Prop where
  complete : w.complete = v.complete
  tags : ∃ own, k.Open v.openTags w.openTags own ∧ Parallel k (own ++ ms) v.cursor w.cursor

namespace Parallel

theorem walk (complete : Bool) (ho : k.Open tags tags' own) (h : Parallel k (own ++ ms) c d) :
    ParallelWalks k ms ⟨c, tags, complete⟩ ⟨d, tags', complete⟩ := ⟨rfl, own, ho, h⟩

/-- The end of a start tag of the text element, with what stands there by mistake. -/
theorem textTagEnd (hname : k.Same name name') (hstart : k.Offsets (start + 1) (start' + 1))
    (h : Parallel k ms c d) : Parallel k ms
      ((if c.nth (c.spacing 0) = .closeAngle then c.bumpN (c.spacing 0 + 1)
        else (c.report .textTagHasAttributes (.ofText (start + 1) name)).recoverTextTag).flush
          .markupTransition)
      ((if d.nth (d.spacing 0) = .closeAngle then d.bumpN (d.spacing 0 + 1)
        else (d.report .textTagHasAttributes (.ofText (start' + 1) name')).recoverTextTag).flush
          .markupTransition) := by
  rw [h.spacing, h.nth]
  split
  · exact (h.bumpN _).flush _
  · exact (h.report rfl (ranges_ofText hstart hname)).recoverTextTag.flush _

theorem textStartTag (hname : k.Same name name') (hk : c.current = .openAngle)
    (ho : k.Open tags tags' own) (h : Parallel k (own ++ ms) c d) :
    ParallelWalks k ms (c.textStartTag tags name) (d.textStartTag tags' name') := by
  have hstart := h.offset_name hk
  have hread := h.bump.eatName
  unfold Cursor.textStartTag
  dsimp only
  rw [hread.spacing, hread.nth]
  by_cases hslash : c.bump.eatName.nth (c.bump.eatName.spacing 0) = .slash
  · simp only [if_pos hslash]
    exact ((hread.bumpN _).textTagEnd hname hstart).walk true ho
  · simp only [if_neg hslash]
    exact (hread.textTagEnd hname hstart).walk true (.text hname hstart rfl rfl ho)

theorem restOfStartTag (ha : code.Agrees k) {m n : Marker} (hname : k.Same name name')
    (hstart : k.Offsets (start + 1) (start' + 1)) (ho : k.Open tags tags' own)
    (h : Parallel k ((m, n) :: (own ++ ms)) c d) :
    ParallelWalks k ms (c.restOfStartTag code tags m name start)
      (d.restOfStartTag code tags' n name' start') := by
  obtain ⟨has, hread⟩ := h.attributes ha
  unfold Cursor.restOfStartTag
  dsimp only
  rw [hread.at?]
  split
  · exact (hread.complete .tagBlock).walk false ho
  · obtain ⟨hself, heat⟩ := hread.eat .slash
    have hrange : k.Ranges ⟨start + 1, start + 1 + max (Text.width name) 1⟩
        ⟨start' + 1, start' + 1 + max (Text.width name') 1⟩ :=
      ⟨hstart, max (Text.width name) 1, rfl, by rw [hname.width_eq]⟩
    obtain ⟨hclosed, hclose⟩ := heat.closeAngle hname hrange
    rw [hself, hclosed]
    split
    · exact (hclose.complete .tagBlock).walk false ho
    · have hflush := hclose.flush .literal
      rw [hflush.options, hflush.otherOptions, isVoidElement_eq hname, isScriptTag_eq hname,
        scriptHoldsMarkup_eq has]
      split
      · exact (hflush.complete .tagBlock).walk true ho
      · split
        · exact ((hflush.voidEndTag hname).complete .tagBlock).walk true ho
        · split
          · exact ((hflush.scriptBody ha hname).complete .tagBlock).walk true ho
          · exact hflush.walk true (.element hname hstart rfl rfl ho)

theorem startTag (ha : code.Agrees k) (hk : c.current = .openAngle) (ho : k.Open tags tags' own)
    (h : Parallel k (own ++ ms) c d) :
    ParallelWalks k ms (c.startTag code tags) (d.startTag code tags') := by
  have hname := h.tagNameAt 1
  unfold Cursor.startTag
  dsimp only
  rw [ho.isEmpty_eq, h.options, h.otherOptions, isTextTag_eq hname]
  split
  · exact h.textStartTag hname hk ho
  · exact h.start.bump.bangEscape.eatName.restOfStartTag ha hname (h.offset_name hk) ho

theorem endTag (hk : c.current = .openAngle) (hs : c.nth 1 = .slash) (ho : k.Open tags tags' own)
    (h : Parallel k (own ++ ms) c d) : ParallelWalks k ms (c.endTag tags) (d.endTag tags') := by
  have hname := h.tagNameAt 2
  unfold Cursor.endTag
  rw [h.nth]
  split
  · exact ((h.start.bumpN 2).complete .tagBlock).walk false ho
  · dsimp only
    have hr := h.removeMatching hname (h.offset_endName hk hs) ho
    have hahead := ahead_removeMatching (c.tagNameAt 2) c.offset tags c
    generalize OpenTags.removeMatching (c.tagNameAt 2) c.offset tags c = r,
      OpenTags.removeMatching (d.tagNameAt 2) d.offset tags' d = r' at hr hahead ⊢
    -- nothing is read while tags are taken off, so the cursor is still on the `</`
    have hat {e : Cursor σ} (he : e.ahead = c.ahead) : e.current = .openAngle ∧ e.nth 1 = .slash := by
      have hnth (n : Nat) : e.nth n = c.nth n := by
        unfold Cursor.nth
        rw [he]
      exact ⟨(hnth 0).trans hk, (hnth 1).trans hs⟩
    cases hr with
    | @unmatched e f he =>
      obtain ⟨hek, hes⟩ := hat (e := e) hahead
      have hblock := he.endTagBlock hname hek hes
      dsimp only
      generalize e.endTagBlock (c.tagNameAt 2) = x, f.endTagBlock (d.tagNameAt 2) = y at hblock ⊢
      obtain ⟨closed, e⟩ := x
      obtain ⟨closed', f⟩ := y
      obtain ⟨rfl, hblock⟩ : closed' = closed ∧ Parallel k ms e f := hblock
      exact ⟨rfl, [], .nil, hblock⟩
    | @matched t u rest rest' own' e f ho' he =>
      obtain ⟨hek, hes⟩ := hat (e := e) hahead
      obtain ⟨own'', hrest, hclosed⟩ := he.closeTag ho'
      obtain ⟨hck, hcs⟩ := hat (e := t.close e) ((ahead_close t e).trans hahead)
      dsimp only
      rw [hrest.isEmpty_eq, he.options, he.otherOptions, isTextTag_eq hname]
      split
      · exact (hclosed.textEndTag hname hck hcs).walk true hrest
      · have hblock := he.endTagBlock hname hek hes
        generalize e.endTagBlock (c.tagNameAt 2) = x, f.endTagBlock (d.tagNameAt 2) = y at hblock ⊢
        obtain ⟨closed, e⟩ := x
        obtain ⟨closed', f⟩ := y
        obtain ⟨rfl, hblock⟩ : closed' = closed ∧ Parallel k (own' ++ ms) e f := hblock
        obtain ⟨own'', hrest, hclosed⟩ := hblock.closeTag ho'
        exact hclosed.walk _ hrest

theorem loneAngle (ho : k.Open tags tags' own) (h : Parallel k (own ++ ms) c d) :
    ParallelWalks k ms (c.loneAngle tags) (d.loneAngle tags') := by
  have hread := h.start.bump
  unfold Cursor.loneAngle
  dsimp only
  rw [ho.isEmpty_eq]
  split
  · exact ((hread.report rfl ⟨hread.offset, 0, rfl, rfl⟩).complete .tagBlock).walk false ho
  · exact (hread.complete .tagBlock).walk false ho

theorem atSpecialTag (h : Parallel k ms c d) : d.atSpecialTag = c.atSpecialTag := by
  unfold Cursor.atSpecialTag
  rw [h.nth, h.bangEscapeAt]

theorem tag (ha : code.Agrees k) (hk : c.current = .openAngle) (ho : k.Open tags tags' own)
    (h : Parallel k (own ++ ms) c d) : ParallelWalks k ms (c.tag code tags) (d.tag code tags') := by
  have hspecial := h.specialTag ha
  unfold Cursor.tag
  rw [h.nth, h.atSpecialTag]
  split
  · exact h.loneAngle ho
  · split
    · dsimp only
      rw [hspecial.1]
      exact hspecial.2.walk _ ho
    · split
      · next hs => exact h.endTag hk hs ho
      · exact h.startTag ha hk ho

theorem tagsFrom (ha : code.Agrees k) {bound bound' : Nat} {v w : TagWalk σ}
    (hv : (Cursor.tagsFrom code bound v).cursor.fault = none)
    (hw : (Cursor.tagsFrom code bound' w).cursor.fault = none) (h : ParallelWalks k ms v w) :
    ParallelWalks k ms (Cursor.tagsFrom code bound v) (Cursor.tagsFrom code bound' w) := by
  induction bound generalizing bound' v w with
  | zero => simp [Cursor.tagsFrom, fail] at hv
  | succ bound ih =>
    cases bound' with
    | zero => simp [Cursor.tagsFrom, fail] at hw
    | succ bound' =>
      obtain ⟨own, ho, hcursor⟩ := h.tags
      have hs := (hcursor.skipTo ha .openAngle).flush .literal
      have hat := at_skipTo ha.lawful hcursor.left .openAngle
      revert hv hw
      unfold Cursor.tagsFrom
      dsimp only
      rw [hs.atEnd]
      split
      · exact fun _ _ => ⟨h.complete, own, ho, hs⟩
      · next hend =>
        have hk : ((v.cursor.skipTo code .openAngle).flush .literal).current = .openAngle := by
          have hne := ahead_ne_nil_of_not_atEnd hend
          rw [ahead_flush] at hne
          exact (current_flush ..).trans (hat.resolve_left hne)
        have ht := hs.tag ha hk ho
        obtain ⟨own', ho', -⟩ := ht.tags
        rw [ho'.isEmpty_eq]
        split
        · exact fun _ _ => ht
        · exact fun hv hw => ih hv hw ht

end Parallel

end Cursor

end TemplateMarkup
