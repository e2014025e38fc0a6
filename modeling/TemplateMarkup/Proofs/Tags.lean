import TemplateMarkup.Proofs.Attributes
import TemplateMarkup.Proofs.Offsets
import TemplateMarkup.Proofs.TagOutcomes

/-! # Tags are read along paths

The nodes of the open tags are owned by the walk over the tags, the innermost
first and in front of the caller's own. Every tag accepts at least its `<`, so
the walk ends before its bound does. What a strict client reports about a tag is
the range of a name that was read, so the names of the open tags must be such. -/

namespace TemplateMarkup

/-- The nodes that open tags own. -/
def OpenTags.markers (tags : OpenTags) : List Marker := tags.filterMap OpenTag.block?

/-- The names of the open tags stand in a source of the width. -/
def OpenTags.Within (tags : OpenTags) (width : Nat) : Prop := ∀ t ∈ tags, t.nameRange.stop ≤ width

theorem OpenTags.Within.cons {tags : OpenTags} {width : Nat} {t : OpenTag} (h : tags.Within width)
    (ht : t.nameRange.stop ≤ width) : OpenTags.Within (t :: tags) width :=
  List.forall_mem_cons.mpr ⟨ht, h⟩

theorem Range.ofText_ordered (start : Nat) (text : List Char) :
    (Range.ofText start text).start ≤ (Range.ofText start text).stop := Nat.le_add_right _ _

namespace Cursor

variable {σ : Type} {code : EmbeddedCode σ} {ok : σ → Prop} {strict : Prop} {base : List Event}
  {c₀ c d : Cursor σ} {ms₀ ms : List Marker} {gain : Nat}

/-! ## Special tags and scripts -/

theorem held_bangEscape (hh : c.held = []) : c.bangEscape.held = [] := by
  unfold bangEscape
  split
  · exact (held_flush _ _).trans (held_bump_of_held ((held_flush _ _).trans hh))
  · exact hh

theorem held_eatName (hh : c.held = []) : c.eatName.held = [] := held_bumpN hh _

namespace Reaches

theorem commentBodyFrom (hl : code.Lawful strict ok) {bound : Nat} (hb : c.unclaimed < bound)
    (hok : ok (Cursor.commentBodyFrom code bound c).2.host) (h : Reaches strict base c₀ ms₀ gain c ms) :
    Reaches strict base c₀ ms₀ gain (Cursor.commentBodyFrom code bound c).2 ms := by
  induction bound generalizing c gain with
  | zero => exact absurd hb (Nat.not_lt_zero _)
  | succ bound ih =>
    have hoks : ok (c.skipTo code .doubleHyphen).host := by
      revert hok
      unfold Cursor.commentBodyFrom
      dsimp only
      split
      · exact id
      · split
        · simp
        · intro hok
          simpa using hl.respects.commentBodyFrom bound _ hok
    have hs := h.skipTo hl.toStepwise .doubleHyphen hoks
    have hle := ((Reaches.refl h.sound).skipTo hl.toStepwise .doubleHyphen hoks).gained
    revert hok
    unfold Cursor.commentBodyFrom
    dsimp only
    split
    · exact fun _ => hs
    · next hend =>
      split
      · exact fun _ => ((hs.flush .literal).bumpN _).flush .literal
      · intro hok
        have hne := ahead_ne_nil_of_not_atEnd hend
        have hlt := hs.sound.unclaimed_bump_lt hne
        exact ih (by omega) hok hs.bump

theorem htmlComment (hl : code.Lawful strict ok) (hok : ok (c.htmlComment code).2.host)
    (hne : c.ahead ≠ []) (h : Reaches strict base c₀ ms₀ gain c ms) :
    Reaches strict base c₀ ms₀ (gain + 1) (c.htmlComment code).2 ms := by
  unfold Cursor.htmlComment at hok ⊢
  dsimp only at hok ⊢
  rw [host_complete] at hok
  have hopen := (h.start.bumpN_gain 2 (by simpa using hne)).flush .literal
  exact (hopen.commentBodyFrom hl (Nat.lt_succ_self _) hok).complete .commentBlock

theorem bangTag (hl : code.Lawful strict ok) (hok : ok (c.bangTag code).2.host) (hne : c.ahead ≠ [])
    (h : Reaches strict base c₀ ms₀ gain c ms) :
    Reaches strict base c₀ ms₀ (gain + 1) (c.bangTag code).2 ms := by
  revert hok
  unfold Cursor.bangTag
  dsimp only
  have hopen := h.bumpN_gain 1 hne
  split
  · exact fun hok => h.htmlComment hl hok hne
  · split
    · intro hok
      rw [host_flush] at hok
      exact ((hopen.bumpN 3).acceptThrough hl.toStepwise _ _ hok).flush .literal
    · intro hok
      rw [host_flush] at hok
      exact (hopen.acceptThrough hl.toStepwise _ _ hok).flush .literal

theorem instruction (hl : code.Lawful strict ok) (hok : ok (c.instruction code).2.host)
    (hne : c.ahead ≠ []) (h : Reaches strict base c₀ ms₀ gain c ms) :
    Reaches strict base c₀ ms₀ (gain + 1) (c.instruction code).2 ms := by
  unfold Cursor.instruction at hok ⊢
  dsimp only at hok ⊢
  rw [host_flush] at hok
  exact ((h.bumpN_gain 1 hne).acceptThrough hl.toStepwise _ _ hok).flush .literal

theorem specialTag (hl : code.Lawful strict ok) (hok : ok (c.specialTag code).2.host)
    (hne : c.ahead ≠ []) (h : Reaches strict base c₀ ms₀ gain c ms) :
    Reaches strict base c₀ ms₀ (gain + 1) (c.specialTag code).2 ms := by
  revert hok
  unfold Cursor.specialTag
  split
  · exact fun hok => h.bangTag hl hok hne
  · exact fun hok => h.instruction hl hok hne

theorem bangEscape (h : Reaches strict base c₀ ms₀ gain c ms) :
    Reaches strict base c₀ ms₀ gain c.bangEscape ms := by
  unfold Cursor.bangEscape
  split
  · exact (h.flush .literal).bump.flush .metacode
  · exact h

theorem eatName (h : Reaches strict base c₀ ms₀ gain c ms) :
    Reaches strict base c₀ ms₀ gain c.eatName ms :=
  h.bumpWhile _

theorem acceptUntil (kinds : List Kind) (h : Reaches strict base c₀ ms₀ gain c ms) :
    Reaches strict base c₀ ms₀ gain (c.acceptUntil kinds) ms := h.bumpWhile _

theorem closeAngle (name : List Char) {range : Range} (hr : range.start ≤ range.stop)
    (hw : strict → range.stop ≤ Text.width c₀.text) (h : Reaches strict base c₀ ms₀ gain c ms) :
    Reaches strict base c₀ ms₀ gain (c.closeAngle name range).2 ms := by
  unfold Cursor.closeAngle
  dsimp only
  split
  · exact h.eat _
  · exact ((h.eat _).report _ hr hw).missing _

theorem recoverTextTag (h : Reaches strict base c₀ ms₀ gain c ms) :
    Reaches strict base c₀ ms₀ gain c.recoverTextTag ms := (h.acceptUntil _).eat _

theorem scriptBodyFrom (hl : code.Lawful strict ok) (name : List Char) {bound : Nat}
    (hb : c.unclaimed < bound) (hok : ok (Cursor.scriptBodyFrom code name bound c).host)
    (h : Reaches strict base c₀ ms₀ gain c ms) :
    Reaches strict base c₀ ms₀ gain (Cursor.scriptBodyFrom code name bound c) ms := by
  induction bound generalizing c with
  | zero => exact absurd hb (Nat.not_lt_zero _)
  | succ bound ih =>
    have hoks : ok (c.skipTo code .openAngle).host := by
      revert hok
      unfold Cursor.scriptBodyFrom
      dsimp only
      split
      · exact id
      · split
        · intro hok
          rw [host_complete, host_closeAngle] at hok
          simpa using hl.respects.skipTo .closeAngle _ hok
        · intro hok
          simpa using hl.respects.scriptBodyFrom name bound _ hok
    have hs := h.skipTo hl.toStepwise .openAngle hoks
    have hle := ((Reaches.refl h.sound).skipTo hl.toStepwise .openAngle hoks).gained
    revert hok
    unfold Cursor.scriptBodyFrom
    dsimp only
    split
    · exact fun _ => hs
    · next hend =>
      split
      · next hclose =>
        intro hok
        rw [host_complete, host_closeAngle] at hok
        have hname := hs.sound.tagName_le (n := 2) (lt_length_of_nth (n := 1) (by simp [hclose.1]))
        rw [Text.width_of_sameIgnoringCase hclose.2, hs.path.text_eq] at hname
        exact (((hs.start.bumpN 2).eatName.skipTo hl.toStepwise _ hok).closeAngle name
          (Range.ofText_ordered _ _) fun _ => hname).complete .tagBlock
      · intro hok
        have hlt := hs.sound.unclaimed_bump_lt (ahead_ne_nil_of_not_atEnd hend)
        exact ih (by omega) hok hs.bump

theorem scriptBody (hl : code.Lawful strict ok) (name : List Char)
    (hok : ok (c.scriptBody code name).host) (h : Reaches strict base c₀ ms₀ gain c ms) :
    Reaches strict base c₀ ms₀ gain (c.scriptBody code name) ms :=
  h.scriptBodyFrom hl name (Nat.lt_succ_self _) hok

/-! ## Open tags -/

theorem closeTag {t : OpenTag} (h : Reaches strict base c₀ ms₀ gain c (OpenTags.markers [t] ++ ms)) :
    Reaches strict base c₀ ms₀ gain (t.close c) ms := by
  unfold OpenTag.close
  cases hb : t.block? with
  | none => simpa [OpenTags.markers, hb] using h
  | some m => exact Reaches.complete (m := m) .tagBlock (by simpa [OpenTags.markers, hb] using h)

theorem closeUnended {t : OpenTag} (hw : strict → t.nameRange.stop ≤ Text.width c₀.text)
    (h : Reaches strict base c₀ ms₀ gain c (OpenTags.markers [t] ++ ms)) :
    Reaches strict base c₀ ms₀ gain (t.closeUnended c) ms :=
  (h.report _ (Range.ofText_ordered _ _) hw).closeTag

end Reaches

theorem markers_cons (t : OpenTag) (tags : OpenTags) :
    OpenTags.markers (t :: tags) = OpenTags.markers [t] ++ OpenTags.markers tags := by
  unfold OpenTags.markers
  rw [← List.filterMap_append]
  rfl

namespace Reaches

/-- The tag taken off is the caller's now, the ones before it are closed. -/
theorem removeMatching (name : List Char) (endTag : Nat) {tags : OpenTags}
    (hw : strict → tags.Within (Text.width c₀.text))
    (hname : strict → endTag + 2 + Text.width name ≤ Text.width c₀.text)
    (h : Reaches strict base c₀ ms₀ gain c (tags.markers ++ ms)) :
    Reaches strict base c₀ ms₀ gain (OpenTags.removeMatching name endTag tags c).2.2
      (OpenTags.markers (OpenTags.removeMatching name endTag tags c).1.toList ++
        (OpenTags.markers (OpenTags.removeMatching name endTag tags c).2.1 ++ ms)) := by
  induction tags generalizing c with
  | nil => exact h.report _ (Range.ofText_ordered _ _) hname
  | cons t rest ih =>
    rw [markers_cons, List.append_assoc] at h
    unfold OpenTags.removeMatching
    split
    · exact h
    · have hc := h.closeUnended fun hs => hw hs t (List.mem_cons_self ..)
      dsimp only
      split
      · next hrest =>
        rw [List.isEmpty_iff.mp hrest] at hc
        exact hc
      · exact ih (fun hs u hu => hw hs u (List.mem_cons_of_mem t hu)) hc

theorem foldl_close {tags : OpenTags} (h : Reaches strict base c₀ ms₀ gain c (tags.markers ++ ms)) :
    Reaches strict base c₀ ms₀ gain (tags.foldl (fun c t => t.close c) c) ms := by
  induction tags generalizing c with
  | nil => exact h
  | cons t rest ih =>
    rw [markers_cons, List.append_assoc] at h
    exact ih h.closeTag

theorem drain {tags : OpenTags} (hw : strict → tags.Within (Text.width c₀.text))
    (h : Reaches strict base c₀ ms₀ gain c (tags.markers ++ ms)) :
    Reaches strict base c₀ ms₀ gain (tags.drain c).2 ms := by
  cases tags with
  | nil => exact h
  | cons t rest =>
    rw [markers_cons, List.append_assoc] at h
    exact (h.closeUnended fun hs => hw hs t (List.mem_cons_self ..)).foldl_close

end Reaches

@[simp] theorem ahead_close (t : OpenTag) (c : Cursor σ) : (t.close c).ahead = c.ahead := by
  unfold OpenTag.close
  split <;> simp

@[simp] theorem ahead_closeUnended (t : OpenTag) (c : Cursor σ) :
    (t.closeUnended c).ahead = c.ahead := by
  unfold OpenTag.closeUnended
  simp

@[simp] theorem ahead_removeMatching (name : List Char) (endTag : Nat) (tags : OpenTags)
    (c : Cursor σ) : (OpenTags.removeMatching name endTag tags c).2.2.ahead = c.ahead := by
  induction tags generalizing c with
  | nil => simp [OpenTags.removeMatching]
  | cons t rest ih =>
    unfold OpenTags.removeMatching
    split
    · rfl
    · dsimp only
      split
      · simp
      · rw [ih, ahead_closeUnended]

@[simp] theorem tokens_close (t : OpenTag) (c : Cursor σ) : (t.close c).tokens = c.tokens := by
  unfold OpenTag.close
  split <;> simp

@[simp] theorem tokens_removeMatching (name : List Char) (endTag : Nat) (tags : OpenTags)
    (c : Cursor σ) : (OpenTags.removeMatching name endTag tags c).2.2.tokens = c.tokens := by
  induction tags generalizing c with
  | nil => simp [OpenTags.removeMatching]
  | cons t rest ih =>
    have hclosed : (t.closeUnended c).tokens = c.tokens := by simp [OpenTag.closeUnended]
    unfold OpenTags.removeMatching
    split
    · rfl
    · dsimp only
      split
      · exact hclosed
      · exact (ih _).trans hclosed

/-! ## Tags -/

/-- The tags that stay open are among those that were. -/
theorem mem_removeMatching {name : List Char} {endTag : Nat} {tags : OpenTags} {t : OpenTag}
    (ht : t ∈ (OpenTags.removeMatching name endTag tags c).2.1) : t ∈ tags := by
  induction tags generalizing c with
  | nil => exact ht
  | cons u rest ih =>
    unfold OpenTags.removeMatching at ht
    dsimp only at ht
    split at ht
    · exact List.mem_cons_of_mem u ht
    · split at ht
      · exact absurd ht List.not_mem_nil
      · exact List.mem_cons_of_mem u (ih ht)

/-- A path to the state between two tags. -/
structure WalkReaches (strict : Prop) (base : List Event) (c₀ : Cursor σ) (ms₀ : List Marker)
    (gain : Nat) (w : TagWalk σ) (ms : List Marker) : Prop extends
    Reaches strict base c₀ ms₀ gain w.cursor (w.openTags.markers ++ ms) where
  names : strict → w.openTags.Within (Text.width c₀.text)

theorem Reaches.walk (tags : OpenTags) (complete : Bool)
    (hnames : strict → tags.Within (Text.width c₀.text))
    (h : Reaches strict base c₀ ms₀ gain c (tags.markers ++ ms)) :
    WalkReaches strict base c₀ ms₀ gain ⟨c, tags, complete⟩ ms := ⟨h, hnames⟩

theorem WalkReaches.weaken {less : Nat} {w : TagWalk σ}
    (h : WalkReaches strict base c₀ ms₀ gain w ms) (hl : less ≤ gain) :
    WalkReaches strict base c₀ ms₀ less w ms := ⟨h.toReaches.weaken hl, h.names⟩

namespace Reaches

theorem endTagBlock (name : List Char) (hne : c.ahead ≠ [])
    (hname : strict → c.offset + 2 + Text.width name ≤ Text.width c₀.text)
    (h : Reaches strict base c₀ ms₀ gain c ms) :
    Reaches strict base c₀ ms₀ (gain + 1) (c.endTagBlock name).2 ms := by
  unfold Cursor.endTagBlock
  dsimp only
  have hopen := h.start.bumpN_gain 1 (by simpa using hne)
  have hclose := (hopen.bangEscape.eatName.acceptUntil [.closeAngle, .openAngle]).closeAngle name
    (Range.ofText_ordered (c.offset + 2) name) hname
  exact hclose.complete .tagBlock

theorem textEndTag (name : List Char) (hne : c.ahead ≠ [])
    (hname : strict → c.offset + 2 + Text.width name ≤ Text.width c₀.text)
    (h : Reaches strict base c₀ ms₀ gain c ms) :
    Reaches strict base c₀ ms₀ (gain + 1) (c.textEndTag name) ms := by
  have hopen := (h.bumpN_gain 1 hne).eatName.eat .closeAngle
  unfold Cursor.textEndTag
  dsimp only
  split
  · exact hopen.flush .markupTransition
  · exact (hopen.report _ (Range.ofText_ordered _ _) hname).recoverTextTag.flush .markupTransition

theorem voidEndTag (name : List Char) (h : Reaches strict base c₀ ms₀ gain c ms) :
    Reaches strict base c₀ ms₀ gain (c.voidEndTag name) ms := by
  unfold Cursor.voidEndTag
  dsimp only
  split
  · exact (((h.bumpN _).eatName.acceptUntil _).eat _).flush .literal
  · exact h

theorem textTag {start : Nat} {name : List Char} {e : Cursor σ}
    (hname : strict → start + Text.width name ≤ Text.width c₀.text)
    (h : Reaches strict base c₀ ms₀ gain c ms) (hends : TextTagEnds (.ofText start name) c e) :
    Reaches strict base c₀ ms₀ gain e ms := by
  cases hends with
  | closed => exact h.bumpN _
  | reported => exact (h.report _ (Range.ofText_ordered _ _) hname).recoverTextTag

theorem textStartTag {tags : OpenTags} (name : List Char) (hne : c.ahead ≠ [])
    (hnames : strict → tags.Within (Text.width c₀.text))
    (hname : strict → c.offset + 1 + Text.width name ≤ Text.width c₀.text)
    (h : Reaches strict base c₀ ms₀ gain c (tags.markers ++ ms)) :
    WalkReaches strict base c₀ ms₀ (gain + 1) (c.textStartTag tags name) ms := by
  have hopen := (h.bump_gain hne).eatName
  have hends := textStartTag_ends tags name c
  generalize c.textStartTag tags name = w at hends ⊢
  cases hends with
  | selfClosing _ hread =>
    exact walk tags true hnames (((hopen.bumpN _).textTag hname hread).flush .markupTransition)
  | opened _ hread =>
    exact walk (⟨name, c.offset, none⟩ :: tags) true
      (fun hstrict => (hnames hstrict).cons (hname hstrict))
      ((hopen.textTag hname hread).flush .markupTransition)

/-- The range reported for a tag without a name is that of the token where the name should be. -/
theorem restOfStartTag (hl : code.Lawful strict ok) {tags : OpenTags} {m : Marker} {name : List Char}
    {start : Nat} (hnames : strict → tags.Within (Text.width c₀.text))
    (hname : strict → start + 1 + max (Text.width name) 1 ≤ Text.width c₀.text) (hh : c.held = [])
    (hok : ok (c.restOfStartTag code tags m name start).cursor.host)
    (h : Reaches strict base c₀ ms₀ gain c (m :: (tags.markers ++ ms))) :
    WalkReaches strict base c₀ ms₀ gain (c.restOfStartTag code tags m name start) ms := by
  have hends := restOfStartTag_ends code tags m name start c
  generalize c.restOfStartTag code tags m name start = w at hok hends ⊢
  have hoka : ok (c.attributes code).2.host := by
    cases hends with
    | cutOff => simpa using hok
    | unclosed => simpa [throughHead] using hok
    | selfClosing | void | opened => simpa [behindHead, throughHead] using hok
    | script =>
      rw [host_complete] at hok
      simpa [behindHead, throughHead] using hl.respects.scriptBody name _ hok
  have ha := h.attributes hl hh hoka
  have hrange : (⟨start + 1, start + 1 + max (Text.width name) 1⟩ : Range).start ≤
      start + 1 + max (Text.width name) 1 := Nat.le_add_right _ _
  have hclose : Reaches strict base c₀ ms₀ gain (c.throughHead code name start).2
      (m :: (tags.markers ++ ms)) := (ha.eat .slash).closeAngle name hrange hname
  have hflush : Reaches strict base c₀ ms₀ gain (c.behindHead code name start)
      (m :: (tags.markers ++ ms)) := hclose.flush .literal
  cases hends with
  | cutOff => exact (ha.complete .tagBlock).walk _ false hnames
  | unclosed => exact (hclose.complete .tagBlock).walk _ false hnames
  | selfClosing => exact (hflush.complete .tagBlock).walk _ true hnames
  | void => exact ((hflush.voidEndTag name).complete .tagBlock).walk _ true hnames
  | script =>
    rw [host_complete] at hok
    exact ((hflush.scriptBody hl name hok).complete .tagBlock).walk _ true hnames
  | opened =>
    refine walk (⟨name, start, some m⟩ :: tags) true (fun hstrict => (hnames hstrict).cons ?_) hflush
    exact Nat.le_trans (Nat.add_le_add_left (Nat.le_max_left _ _) _) (hname hstrict)

theorem startTag (hl : code.Lawful strict ok) {tags : OpenTags}
    (hnames : strict → tags.Within (Text.width c₀.text))
    (hok : ok (c.startTag code tags).cursor.host) (hnext : c.nth 1 ≠ .endOfInput)
    (h : Reaches strict base c₀ ms₀ gain c (tags.markers ++ ms)) :
    WalkReaches strict base c₀ ms₀ (gain + 1) (c.startTag code tags) ms := by
  have hlength := lt_length_of_nth hnext
  have hne : c.ahead ≠ [] := List.ne_nil_of_length_pos (by omega)
  have hname : c.offset + 1 + max (Text.width (c.tagNameAt 1)) 1 ≤ Text.width c₀.text := by
    have hname := h.sound.tagName_le (n := 1) (by omega)
    have hnext := h.sound.offset_add_le (n := 2) hlength (Nat.zero_le _)
    rw [h.path.text_eq] at hname hnext
    omega
  revert hok
  unfold Cursor.startTag
  dsimp only
  split
  · refine fun _ => h.textStartTag _ hne hnames fun _ => ?_
    omega
  · intro hok
    have hopen := h.start.bump_gain (by simpa using hne)
    have hheld : c.start.2.bump.held = [] := held_bump_of_ne_nil (by simpa using hne)
    exact hopen.bangEscape.eatName.restOfStartTag hl hnames (fun _ => hname)
      (held_eatName (held_bangEscape hheld)) hok

theorem endTag {tags : OpenTags} (hnames : strict → tags.Within (Text.width c₀.text))
    (hslash : c.nth 1 = .slash) (h : Reaches strict base c₀ ms₀ gain c (tags.markers ++ ms)) :
    WalkReaches strict base c₀ ms₀ (gain + 1) (c.endTag tags) ms := by
  have hlength : 1 < c.ahead.length := lt_length_of_nth (by simp [hslash])
  have hne : c.ahead ≠ [] := List.ne_nil_of_length_pos (by omega)
  have hname : c.offset + 2 + Text.width (c.tagNameAt 2) ≤ Text.width c₀.text :=
    h.path.text_eq ▸ h.sound.tagName_le (n := 2) hlength
  have hremoved := h.removeMatching (c.tagNameAt 2) c.offset hnames fun _ => hname
  have ha := ahead_removeMatching (c.tagNameAt 2) c.offset tags c
  have hrest (hstrict : strict) :
      (OpenTags.removeMatching (c.tagNameAt 2) c.offset tags c).2.1.Within (Text.width c₀.text) :=
    fun t ht => hnames hstrict t (mem_removeMatching ht)
  have hat {e : Cursor σ} (htext : e.text = c₀.text) (hahead : e.ahead = c.ahead) :
      e.offset + 2 + Text.width (c.tagNameAt 2) ≤ Text.width c₀.text := by
    rw [offset_congr (htext.trans h.path.text_eq.symm) hahead]
    exact hname
  have hblock := hremoved.endTagBlock (c.tagNameAt 2) (by rwa [ha])
    fun _ => hat hremoved.path.text_eq ha
  have hends := endTag_ends tags c
  generalize c.endTag tags = w at hends ⊢
  cases hends with
  | bare =>
    exact ((h.start.bumpN_gain 1 (by simpa using hne)).complete .tagBlock).walk _ false hnames
  | unmatched _ hr =>
    rw [hr] at hblock hrest
    exact hblock.walk _ _ hrest
  | @text t d _ hr =>
    rw [hr] at hremoved ha hrest
    have hclosed := hremoved.closeTag
    have haheadClosed : (t.close d).ahead = c.ahead := (ahead_close t d).trans ha
    exact (hclosed.textEndTag _ (by rwa [haheadClosed])
      fun _ => hat hclosed.path.text_eq haheadClosed).walk _ true hrest
  | element _ hr =>
    rw [hr] at hblock hrest
    exact hblock.closeTag.walk _ _ hrest

theorem loneAngle {tags : OpenTags} (hnames : strict → tags.Within (Text.width c₀.text))
    (hne : c.ahead ≠ []) (h : Reaches strict base c₀ ms₀ gain c (tags.markers ++ ms)) :
    WalkReaches strict base c₀ ms₀ (gain + 1) (c.loneAngle tags) ms := by
  have hopen := h.start.bump_gain (by simpa using hne)
  have hend : c.start.2.bump.offset ≤ Text.width c₀.text :=
    hopen.path.text_eq ▸ hopen.sound.offset_le
  unfold Cursor.loneAngle
  dsimp only
  split
  · exact ((hopen.report _ (Nat.le_refl _) fun _ => hend).complete .tagBlock).walk _ false hnames
  · exact (hopen.complete .tagBlock).walk _ false hnames

theorem tag (hl : code.Lawful strict ok) {tags : OpenTags}
    (hnames : strict → tags.Within (Text.width c₀.text))
    (hok : ok (c.tag code tags).cursor.host) (hne : c.ahead ≠ [])
    (h : Reaches strict base c₀ ms₀ gain c (tags.markers ++ ms)) :
    WalkReaches strict base c₀ ms₀ (gain + 1) (c.tag code tags) ms := by
  revert hok
  unfold Cursor.tag
  dsimp only
  split
  · exact fun _ => h.loneAngle hnames hne
  · next hnext =>
    split
    · exact fun hok => (h.specialTag hl hok hne).walk _ _ hnames
    · split
      · next hslash => exact fun _ => h.endTag hnames hslash
      · exact fun hok => h.startTag hl hnames hok hnext

/-- The walk ends before its bound does, since each tag accepts something. -/
theorem tagsFrom (hl : code.Lawful strict ok) {bound : Nat} {w : TagWalk σ}
    (hb : w.cursor.unclaimed < bound) (hok : ok (Cursor.tagsFrom code bound w).cursor.host)
    (h : WalkReaches strict base c₀ ms₀ gain w ms) :
    WalkReaches strict base c₀ ms₀ gain (Cursor.tagsFrom code bound w) ms := by
  induction bound generalizing w with
  | zero => exact absurd hb (Nat.not_lt_zero _)
  | succ bound ih =>
    have hokt : ¬ ((w.cursor.skipTo code .openAngle).flush .literal).atEnd = true →
        ok (((w.cursor.skipTo code .openAngle).flush .literal).tag code w.openTags).cursor.host := by
      intro hend
      revert hok
      unfold Cursor.tagsFrom
      dsimp only
      rw [if_neg hend]
      split
      · exact id
      · exact hl.respects.tagsFrom bound _
    have hoks : ok (w.cursor.skipTo code .openAngle).host := by
      by_cases hend : ((w.cursor.skipTo code .openAngle).flush .literal).atEnd = true
      · revert hok
        unfold Cursor.tagsFrom
        dsimp only
        rw [if_pos hend]
        simp
      · simpa using hl.respects.tag _ _ (hokt hend)
    have hs := (h.toReaches.skipTo hl.toStepwise .openAngle hoks).flush .literal
    have hle := (((Reaches.refl h.sound).skipTo hl.toStepwise .openAngle hoks).flush .literal).gained
    revert hok
    unfold Cursor.tagsFrom
    dsimp only
    split
    · exact fun _ => ⟨hs, h.names⟩
    · next hend =>
      have hne := ahead_ne_nil_of_not_atEnd hend
      have ht := hs.tag hl h.names (hokt hend) hne
      have hnames (hstrict : strict) : w.openTags.Within (Text.width
          ((w.cursor.skipTo code .openAngle).flush .literal).text) :=
        hs.path.text_eq ▸ h.names hstrict
      have hlt := ((Reaches.refl hs.sound).tag hl hnames (hokt hend) hne).gained
      split
      · exact fun _ => ht.weaken (Nat.le_succ _)
      · exact fun hok => ih (by omega) hok (ht.weaken (Nat.le_succ _))

theorem endTags {w : TagWalk σ} (h : WalkReaches strict base c₀ ms₀ gain w ms) :
    Reaches strict base c₀ ms₀ gain (Cursor.endTags w) ms := by
  have hd := h.toReaches.drain h.names
  unfold Cursor.endTags
  dsimp only
  generalize (w.openTags.drain w.cursor).2 = c at hd ⊢
  split
  · split
    · exact ((hd.eat _).eat _).flush .literal
    · exact hd.flush .literal
  · split
    · exact ((hd.eat _).eat _).flush .literal
    · exact hd.flush .literal

theorem tagBlock (hl : code.Lawful strict ok) (hok : ok (c.tagBlock code).host)
    (h : Reaches strict base c₀ ms₀ gain c ms) :
    Reaches strict base c₀ ms₀ gain (c.tagBlock code) ms := by
  unfold Cursor.tagBlock at hok ⊢
  rw [host_endTags] at hok
  exact endTags (tagsFrom hl (Nat.lt_succ_self _) hok ⟨h, fun _ _ ht => absurd ht List.not_mem_nil⟩)

end Reaches

end Cursor

end TemplateMarkup
