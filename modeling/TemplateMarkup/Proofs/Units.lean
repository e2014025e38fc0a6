import TemplateMarkup.Parse
import TemplateMarkup.Proofs.Replay
import TemplateMarkup.Proofs.Tags

/-! # Units of markup, and the tree around them

Both ways to read a unit are paths. A run of the parser puts the unit's events
behind two placeholders, one for the root and one for the unit, and gives both
their kinds at the end; so its tree is known down to the children of the unit,
and its text is the text of all tokens. -/

namespace TemplateMarkup.Cursor

open Event

variable {σ : Type} {code : EmbeddedCode σ} {ok : σ → Prop} {strict : Prop} {base : List Event}
  {c₀ c d : Cursor σ} {ms₀ ms : List Marker} {gain : Nat}

/-! ## A unit is a path -/

namespace Reaches

theorem singleLine (hl : code.Lawful strict ok) (hok : ok (c.singleLine code).host)
    (h : Reaches strict base c₀ ms₀ gain c ms) :
    Reaches strict base c₀ ms₀ gain (c.singleLine code) ms := by
  unfold Cursor.singleLine at hok ⊢
  dsimp only at hok ⊢
  rw [host_flush] at hok
  dsimp only at hok
  rw [host_eat] at hok
  exact ((((h.context _).skipTo hl.toStepwise .newline hok).eat .newline).context _).flush .literal

theorem afterTransition (hl : code.Lawful strict ok) (hok : ok (c.afterTransition code).host)
    (h : Reaches strict base c₀ ms₀ gain c ms) :
    Reaches strict base c₀ ms₀ gain (c.afterTransition code) ms := by
  revert hok
  unfold Cursor.afterTransition
  split
  · exact (h.bump.flush .metacode).singleLine hl
  · exact h.tagBlock hl
  · exact fun _ => h

theorem doubledTransition (h : Reaches strict base c₀ ms₀ gain c ms) :
    Reaches strict base c₀ ms₀ gain c.doubledTransition ms := by
  unfold Cursor.doubledTransition
  dsimp only
  split
  · exact (h.eat _).flush .metacode
  · exact h.eat _

theorem blockContent (hl : code.Lawful strict ok) (hok : ok (c.blockContent code).host)
    (h : Reaches strict base c₀ ms₀ gain c ms) :
    Reaches strict base c₀ ms₀ gain (c.blockContent code) ms := by
  revert hok
  unfold Cursor.blockContent
  split
  · exact h.tagBlock hl
  · exact fun hok => ((h.flush .literal).bump.flush .markupTransition).doubledTransition
      |>.afterTransition hl hok
  · exact fun _ => h
  · exact fun _ => h.report _ (Range.ofText_ordered _ _) fun _ =>
      h.path.text_eq ▸ h.sound.currentText_le

theorem looseTag (hl : code.Lawful strict ok) (hok : ok (c.looseTag code).host) (hne : c.ahead ≠ [])
    (h : Reaches strict base c₀ ms₀ gain c ms) :
    Reaches strict base c₀ ms₀ (gain + 1) (c.looseTag code) ms := by
  have hopen := (h.start.bump_gain (by simpa using hne)).eat .slash
  revert hok
  unfold Cursor.looseTag
  split
  · exact fun hok => h.specialTag hl hok hne
  · dsimp only
    split
    · exact fun _ => ((hopen.bangEscape.eatName.bumpWhile _).eat _).complete .tagBlock
    · have hname := hopen.bangEscape.eatName
      have hheld : c.start.2.bump.held = [] := held_bump_of_ne_nil (by simpa using hne)
      have hnone := held_eatName (held_bangEscape (held_eat hheld .slash))
      generalize (c.start.2.bump.eat .slash).2.bangEscape.eatName = e at hname hnone
      intro hok
      have hoka : ok (e.attributes code).2.host := by
        revert hok
        rw [host_complete]
        split
        · split
          · intro hok
            simpa using hl.respects.scriptBody _ _ hok
          · simp
        · simp
      have ha := ((hname.attributes hl hnone hoka).eat .slash).eat .closeAngle
      revert hok
      split
      · split
        · intro hok
          rw [host_complete] at hok
          exact ((ha.flush .literal).scriptBody hl _ hok).complete .tagBlock
        · exact fun _ => (ha.flush .literal).complete .tagBlock
      · exact fun _ => ha.complete .tagBlock

theorem nestingText {opener closer : List Char} {depth : Nat} (hdepth : depth ≠ 0)
    (h : Reaches strict base c₀ ms₀ gain c ms) :
    Reaches strict base c₀ ms₀ gain (c.nestingText opener closer depth).2 ms := by
  unfold Cursor.nestingText
  split
  · exact (h.splitAfter _).bump
  · rw [if_neg hdepth]
    split
    · dsimp only
      split
      · exact (h.splitAfter _).bump
      · exact h
    · exact (h.splitAfter _).bump
  · exact h.bump

end Reaches

/-- Unless the region is over, the text is accepted up to the next sequence. -/
theorem Reaches.nestingText_gain {opener closer : List Char} {depth : Nat} (hne : c.ahead ≠ [])
    (hd : (c.nestingText opener closer depth).1 ≠ 0) (h : Reaches strict base c₀ ms₀ gain c ms) :
    Reaches strict base c₀ ms₀ (gain + 1) (c.nestingText opener closer depth).2 ms := by
  revert hd
  unfold Cursor.nestingText
  split
  · exact fun _ => (h.splitAfter _).bump_gain (ahead_splitAfter_ne_nil hne _)
  · split
    · exact fun hd => absurd rfl hd
    · split
      · exact fun hd => absurd rfl hd
      · exact fun _ => (h.splitAfter _).bump_gain (ahead_splitAfter_ne_nil hne _)
  · exact fun _ => h.bump_gain hne

namespace Reaches

theorem nestingFrom (hl : code.Lawful strict ok) (opener closer : List Char) {bound depth : Nat}
    (hb : c.unclaimed < bound) (hdepth : depth ≠ 0)
    (hok : ok (Cursor.nestingFrom code opener closer bound depth c).host)
    (h : Reaches strict base c₀ ms₀ gain c ms) :
    Reaches strict base c₀ ms₀ gain (Cursor.nestingFrom code opener closer bound depth c) ms := by
  induction bound generalizing depth c with
  | zero => exact absurd hb (Nat.not_lt_zero _)
  | succ bound ih =>
    have hoks : ok (c.skipUntil code fun c => c.at? .text || c.at? .openAngle).host := by
      revert hok
      unfold Cursor.nestingFrom
      dsimp only
      split
      · exact id
      · split
        · intro hok
          simpa using hl.respects.looseTag _ (hl.respects.nestingFrom _ _ _ _ _ hok)
        · split
          · simp
          · intro hok
            simpa using hl.respects.nestingFrom _ _ _ _ _ hok
    have hs := h.skipUntil hl.toStepwise _ hoks
    have hle := ((Reaches.refl h.sound).skipUntil hl.toStepwise _ hoks).gained
    revert hok
    unfold Cursor.nestingFrom
    dsimp only
    generalize c.skipUntil code (fun c => c.at? .text || c.at? .openAngle) = d at hs hle ⊢
    split
    · exact fun _ => hs
    · next hend =>
      have hne := ahead_ne_nil_of_not_atEnd hend
      split
      · intro hok
        have hokt := hl.respects.nestingFrom _ _ _ _ _ hok
        have hf : (d.flush .literal).ahead ≠ [] := by simpa using hne
        have ht := (hs.flush .literal).looseTag hl hokt hf
        have hlt := (((Reaches.refl hs.sound).flush .literal).looseTag hl hokt hf).gained
        exact ih (by omega) hdepth hok (ht.weaken (Nat.le_succ _))
      · split
        · exact fun _ => hs.nestingText hdepth
        · next hnext =>
          intro hok
          have ht := hs.nestingText_gain hne hnext
          have hlt := ((Reaches.refl hs.sound).nestingText_gain hne hnext).gained
          exact ih (by omega) hnext hok (ht.weaken (Nat.le_succ _))

theorem nestingContent (hl : code.Lawful strict ok) (nesting : Nesting)
    (hok : ok (c.nestingContent code nesting).host) (h : Reaches strict base c₀ ms₀ gain c ms) :
    Reaches strict base c₀ ms₀ gain (c.nestingContent code nesting) ms := by
  unfold Cursor.nestingContent at hok ⊢
  rw [host_flush] at hok
  exact (h.nestingFrom hl _ _ (Nat.lt_succ_self _) Nat.one_ne_zero hok).flush .literal

end Reaches

end TemplateMarkup.Cursor
