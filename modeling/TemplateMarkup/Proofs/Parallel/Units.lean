import TemplateMarkup.Proofs.Outcome
import TemplateMarkup.Proofs.Parallel.Tags
import TemplateMarkup.Proofs.Units

/-! # Units of markup of two parses side by side

Behind the last tag of a unit a parse at design time may leave the spacing to the
host where the other claims it, so the two part there. `Ended` is what is still
kept: what was reported, what stands in the open nodes, and what is left to the
host. The rest of a run is made of that. -/

namespace TemplateMarkup

/-! ## Nesting sequences -/

namespace Comparison

variable {k : Comparison} {a b : List Char}

theorem sequenceAt_eq (h : k.Same a b) (sequence : List Char) :
    sequenceAt k.caseSensitive sequence b = sequenceAt k.caseSensitive sequence a := by
  unfold sequenceAt
  cases hc : k.caseSensitive with
  | true =>
    have hid (cs : List Char) : cs.map k.fold = cs := by
      simpa using List.map_congr_left (l := cs) (g := id) fun c _ => k.fold_eq hc c
    have heq : a = b := by
      rw [← hid a, h, hid b]
    rw [heq]
  | false => simp [(h.take sequence.length).sameIgnoringCase (.refl sequence)]

theorem firstBound_eq (h : k.Same a b) (opener closer : List Char) :
    firstBound k.caseSensitive opener closer b = firstBound k.caseSensitive opener closer a := by
  induction a generalizing b with
  | nil =>
    have hb : b = [] := List.length_eq_zero_iff.mp h.length_eq
    rw [hb]
  | cons c a ih =>
    cases b with
    | nil => exact absurd h.length_eq (by simp)
    | cons d b =>
      have hrest : k.Same a b := h.drop 1
      unfold firstBound
      rw [sequenceAt_eq h, sequenceAt_eq h, ih hrest]

end Comparison

namespace Cursor

open Comparison

variable {σ : Type} {k : Comparison} {ms : List (Marker × Marker)} {c d e : Cursor σ}
  {code : EmbeddedCode σ}

theorem kindTest_nesting :
    KindTest fun c : Cursor σ => c.at? .text || c.at? .openAngle := fun _ _ h => by
  simp only [Cursor.at?, Cursor.current, h]

/-! ## The end of an element -/

/-- Tokens that come next, spacing all of them, are accepted. -/
structure AcceptsBlanks (blanks : List Token) (c e : Cursor σ) : Prop where
  moves : Moves c e
  held : e.held = []
  ahead : c.ahead = blanks ++ e.ahead
  pending : e.pending = blanks.reverse ++ c.pending
  trivia : ∀ t ∈ blanks, t.kind.isTrivia = true

theorem acceptsBlanks_eat (hh : c.held = []) (kind : Kind) (hk : kind.isTrivia = true) :
    ∃ blanks, AcceptsBlanks blanks c (c.eat kind).2 := by
  unfold Cursor.eat
  by_cases hat : c.at? kind = true
  · rw [if_pos hat]
    obtain ⟨t, rest, ha⟩ := List.exists_cons_of_ne_nil
      (ahead_ne_nil_of_at hat (by rintro rfl; cases hk))
    refine ⟨[t], .bump c, held_bump ha, by simp [ahead_bump, ha], by simp [Cursor.bump, ha, hh], ?_⟩
    rw [at?, current_cons ha, beq_iff_eq] at hat
    simp [hat, hk]
  · rw [if_neg hat]
    exact ⟨[], .of_tokens rfl rfl rfl rfl rfl rfl, hh, rfl, rfl, by simp⟩

theorem AcceptsBlanks.trans {as bs : List Token} {f : Cursor σ} (h : AcceptsBlanks as c e)
    (h' : AcceptsBlanks bs e f) : AcceptsBlanks (as ++ bs) c f where
  moves := h.moves.trans h'.moves
  held := h'.held
  ahead := by rw [h.ahead, h'.ahead, List.append_assoc]
  pending := by rw [h'.pending, h.pending]; simp
  trivia t ht := (List.mem_append.mp ht).elim (h.trivia t) (h'.trivia t)

/-- What two runs still have in common behind a unit. -/
structure Ended (k : Comparison) (ms : List (Marker × Marker)) (c d : Cursor σ) : Prop where
  left_held : c.held = []
  right_held : d.held = []
  reports : List.Forall₂ k.Reports c.diagnostics.toList d.diagnostics.toList
  frames : ∃ f g fs gs, Shows c (f :: fs) ∧ Shows d (g :: gs) ∧
    k.Frames ms ((f ++ flushTrees .literal c.pending) :: fs)
      ((g ++ flushTrees .literal d.pending) :: gs)
  rest : k.Resembles (flushTrees .unparsed c.ahead.reverse) (flushTrees .unparsed d.ahead.reverse)

namespace Ended

theorem flush (h : Ended k ms c d) : Ended k ms (c.flush .literal) (d.flush .literal) where
  left_held := (held_flush c _).trans h.left_held
  right_held := (held_flush d _).trans h.right_held
  reports := by rw [diagnostics_flush, diagnostics_flush]; exact h.reports
  frames := by
    obtain ⟨f, g, fs, gs, hfs, hgs, hframes⟩ := h.frames
    refine ⟨_, _, fs, gs, hfs.flush .literal, hgs.flush .literal, ?_⟩
    rwa [pending_flush, pending_flush, flushTrees_nil, List.append_nil, List.append_nil]
  rest := by rw [ahead_flush, ahead_flush]; exact h.rest

theorem complete {m n : Marker} (h : Ended k ((m, n) :: ms) c d) (kind : Kind) :
    Ended k ms (c.complete m kind) (d.complete n kind) where
  left_held := (held_complete c m kind).trans h.left_held
  right_held := (held_complete d n kind).trans h.right_held
  reports := by rw [diagnostics_complete, diagnostics_complete]; exact h.reports
  frames := by
    obtain ⟨f, g, fs, gs, hfs, hgs, hframes⟩ := h.frames
    cases hframes with
    | cons hout hm hn hfg =>
      obtain ⟨f', fs, g', gs, rfl, rfl⟩ := hout.exists_cons
      refine ⟨_, _, fs, gs, hfs.complete hm kind, hgs.complete hn kind, ?_⟩
      rw [pending_complete, pending_complete, flushTrees_nil, List.append_nil, List.append_nil]
      exact hout.add (.node kind hfg)
  rest := by rw [ahead_complete, ahead_complete]; exact h.rest

end Ended

namespace Parallel

theorem right_held (h : Parallel k ms c d) : d.held = [] :=
  List.forall₂_nil_left_iff.mp (h.none_held ▸ h.held)

theorem ended (h : Parallel k ms c d) : Ended k ms c d where
  left_held := h.none_held
  right_held := h.right_held
  reports := h.reports
  frames := by
    obtain ⟨fs, gs, hfs, hgs, hframes⟩ := h.frames
    obtain ⟨f, fs, g, gs, rfl, rfl⟩ := hframes.exists_cons
    exact ⟨f, g, fs, gs, hfs, hgs, hframes.add (.flushTrees .literal h.pending)⟩
  rest := .flushTrees .unparsed h.ahead.reverse

/-- The first parse alone accepts the spacing that comes next. -/
theorem ended_left (he : k.editing = true) {blanks : List Token} (hb : AcceptsBlanks blanks c e)
    (h : Parallel k ms c d) : Ended k ms e d where
  left_held := hb.held
  right_held := h.right_held
  reports := by rw [hb.moves.diagnostics]; exact h.reports
  frames := by
    obtain ⟨fs, gs, hfs, hgs, hframes⟩ := h.frames
    obtain ⟨f, fs, g, gs, rfl, rfl⟩ := hframes.exists_cons
    refine ⟨f, g, fs, gs, hb.moves.shows hfs, hgs, hframes.add ?_⟩
    refine .flushTrees_blank he (.inl rfl) ?_
    rw [hb.pending, List.reverse_append, List.reverse_reverse, List.map_append]
    have hleaves := (Resembles.leaves h.pending.reverse).append (.blanks he hb.trivia)
    rwa [List.append_nil] at hleaves
  rest := by
    refine .flushTrees_blank he (.inr rfl) ?_
    rw [List.reverse_reverse, List.reverse_reverse]
    exact .leaves_drop he hb.trivia (hb.ahead ▸ h.ahead)

/-- The second parse alone accepts the spacing that comes next. -/
theorem ended_right (he : k.editing = true) {blanks : List Token} (hb : AcceptsBlanks blanks d e)
    (h : Parallel k ms c d) : Ended k ms c e where
  left_held := h.none_held
  right_held := hb.held
  reports := by rw [hb.moves.diagnostics]; exact h.reports
  frames := by
    obtain ⟨fs, gs, hfs, hgs, hframes⟩ := h.frames
    obtain ⟨f, fs, g, gs, rfl, rfl⟩ := hframes.exists_cons
    refine ⟨f, g, fs, gs, hfs, hb.moves.shows hgs, hframes.add ?_⟩
    refine .flushTrees_blank he (.inl rfl) ?_
    rw [hb.pending, List.reverse_append, List.reverse_reverse, List.map_append]
    have hleaves := (Resembles.leaves h.pending.reverse).append (.blanks' he hb.trivia)
    rwa [List.append_nil] at hleaves
  rest := by
    refine .flushTrees_blank he (.inr rfl) ?_
    rw [List.reverse_reverse, List.reverse_reverse]
    exact .leaves_drop' he hb.trivia (hb.ahead ▸ h.ahead)

theorem markupFollows (h : Parallel k ms c d) : d.markupFollows = c.markupFollows := by
  unfold Cursor.markupFollows
  dsimp only
  rw [h.spacing, h.nth, h.nth]

theorem claimSpacing (claim claim' : Bool) (hclaim : k.editing = false → claim' = claim)
    (h : Parallel k ms c d) :
    Ended k ms (if claim then ((c.eat .whitespace).2.eat .newline).2 else c)
      (if claim' then ((d.eat .whitespace).2.eat .newline).2 else d) := by
  have hboth := ((h.eat .whitespace).2.eat .newline).2
  by_cases he : k.editing = true
  · cases claim <;> cases claim'
    · exact h.ended
    · obtain ⟨as, ha⟩ := acceptsBlanks_eat h.right_held .whitespace rfl
      obtain ⟨bs, hb⟩ := acceptsBlanks_eat ha.held .newline rfl
      exact h.ended_right he (ha.trans hb)
    · obtain ⟨as, ha⟩ := acceptsBlanks_eat h.none_held .whitespace rfl
      obtain ⟨bs, hb⟩ := acceptsBlanks_eat ha.held .newline rfl
      exact h.ended_left he (ha.trans hb)
    · exact hboth.ended
  · rw [hclaim (by simpa using he)]
    split
    · exact hboth.ended
    · exact h.ended

theorem endTags {v w : TagWalk σ} (h : ParallelWalks k ms v w) :
    Ended k ms (Cursor.endTags v) (Cursor.endTags w) := by
  obtain ⟨own, ho, hcursor⟩ := h.tags
  obtain ⟨hclosed, hdrain⟩ := hcursor.drain ho
  unfold Cursor.endTags
  dsimp only
  rw [hdrain.otherOptions, hdrain.options, hclosed, h.complete, hdrain.lastNode,
    hdrain.markupFollows]
  refine (hdrain.claimSpacing _ _ fun he => ?_).flush
  unfold Comparison.otherOptions
  rw [he, Bool.or_false]

theorem tagBlock (ha : code.Agrees k) (h : Parallel k ms c d) :
    Ended k ms (c.tagBlock code) (d.tagBlock code) := by
  have hfault {c : Cursor σ} {ms : List Marker} (hs : Sound False [.placeholder] ms c) :
      (Cursor.tagsFrom code (c.unclaimed + 1) ⟨c, [], false⟩).cursor.fault = none :=
    (Reaches.tagsFrom ha.lawful (Nat.lt_succ_self _) trivial
      ⟨Reaches.refl hs, False.elim⟩).sound.fault
  have hwalks : ParallelWalks k ms ⟨c, [], false⟩ ⟨d, [], false⟩ := ⟨rfl, [], .nil, h⟩
  exact endTags (tagsFrom ha (hfault h.left) (hfault h.right) hwalks)

/-! ## Units -/

/-- Both parsers make whitespace significant, or not, to the code that they hand over. -/
theorem markWhitespace (significant : Bool) (h : Parallel k ms c d) :
    Parallel k ms { c with context.whitespaceSignificant := significant }
      { d with context.whitespaceSignificant := significant } :=
  h.setContext h.options h.caseSensitive (by rw [h.context])

theorem singleLine (ha : code.Agrees k) (h : Parallel k ms c d) :
    Parallel k ms (c.singleLine code) (d.singleLine code) := by
  have houter : d.context.whitespaceSignificant = c.context.whitespaceSignificant := by
    rw [h.context]
  unfold Cursor.singleLine
  dsimp only
  rw [houter]
  exact ((((h.markWhitespace true).skipTo ha .newline).eat .newline).2.markWhitespace _).flush
    .literal

theorem doubledTransition (h : Parallel k ms c d) :
    Parallel k ms c.doubledTransition d.doubledTransition := by
  obtain ⟨hdoubled, heat⟩ := h.eat .transition
  unfold Cursor.doubledTransition
  dsimp only
  rw [hdoubled]
  split
  · exact heat.flush .metacode
  · exact heat

theorem afterTransition (ha : code.Agrees k) (h : Parallel k ms c d) :
    Ended k ms (c.afterTransition code) (d.afterTransition code) := by
  unfold Cursor.afterTransition
  rw [h.current]
  split
  · exact ((h.bump.flush .metacode).singleLine ha).ended
  · exact h.tagBlock ha
  · exact h.ended

theorem blockContent (ha : code.Agrees k) (hk : c.current ≠ .newline) (h : Parallel k ms c d) :
    Ended k ms (c.blockContent code) (d.blockContent code) := by
  unfold Cursor.blockContent
  rw [h.current]
  split
  · exact h.tagBlock ha
  · exact ((h.flush .literal).bump.flush .markupTransition).doubledTransition.afterTransition ha
  · exact h.ended
  · exact (h.report rfl (ranges_ofText h.offset (h.nthText hk))).ended

theorem block (ha : code.Agrees k) (h : Parallel k ms c d) :
    Ended k ms (c.block code) (d.block code) := by
  have hblanks := h.start.bumpWhile (k.blind_kind Kind.isTrivia)
  have hk : (c.start.2.bumpWhile (·.kind.isTrivia)).current ≠ .newline := by
    have htrivia {t rest} := @test_of_ahead_bumpWhile σ c.start.2 (·.kind.isTrivia) t rest
    intro hk
    have hat : (c.start.2.bumpWhile (·.kind.isTrivia)).at? .newline = true := by simp [at?, hk]
    obtain ⟨t, rest, hahead⟩ := List.exists_cons_of_ne_nil (ahead_ne_nil_of_at hat (by decide))
    rw [current_cons hahead] at hk
    have hno := htrivia hahead
    rw [hk] at hno
    cases hno
  exact (hblanks.blockContent ha hk).complete .markupBlock

/-! ## Nested regions -/

theorem looseTag (ha : code.Agrees k) (h : Parallel k ms c d) :
    Parallel k ms (c.looseTag code) (d.looseTag code) := by
  obtain ⟨hslash, hopen⟩ := h.start.bump.eat .slash
  unfold Cursor.looseTag
  rw [h.atSpecialTag]
  split
  · exact (h.specialTag ha).2
  · dsimp only
    rw [hslash]
    split
    · have hspacing := (hopen.bangEscape.eatName).bumpWhile (k.blind_kind (· == .whitespace))
      exact (hspacing.eat .closeAngle).2.complete .tagBlock
    · obtain ⟨has, hread⟩ := hopen.bangEscape.eatName.attributes ha
      obtain ⟨hself, hend⟩ := hread.eat .slash
      obtain ⟨hclosed, hclose⟩ := hend.eat .closeAngle
      have hflush := hclose.flush .literal
      have hname := hopen.tagNameAt 0
      rw [hclosed, hself, hflush.options, hflush.otherOptions, isScriptTag_eq hname,
        scriptHoldsMarkup_eq has]
      split
      · split
        · exact (hflush.scriptBody ha hname).complete .tagBlock
        · exact hflush.complete .tagBlock
      · exact hclose.complete .tagBlock

theorem nestingText (opener closer : List Char) {depth : Nat} (hdepth : depth ≠ 0)
    (hk : c.current ≠ .newline) (h : Parallel k ms c d) :
    (d.nestingText opener closer depth).1 = (c.nestingText opener closer depth).1 ∧
      Parallel k ms (c.nestingText opener closer depth).2
        (d.nestingText opener closer depth).2 := by
  have htext : k.Same c.currentText d.currentText := h.nthText hk
  have hcase : d.context.caseSensitive = k.caseSensitive := by
    rw [h.context]
    exact h.caseSensitive
  unfold Cursor.nestingText
  rw [hcase, h.caseSensitive, firstBound_eq htext]
  split
  · exact ⟨rfl, (h.splitAfter hk).bump⟩
  · rw [if_neg hdepth, if_neg hdepth]
    split
    · split
      · exact ⟨rfl, (h.splitAfter hk).bump⟩
      · exact ⟨rfl, h⟩
    · exact ⟨rfl, (h.splitAfter hk).bump⟩
  · exact ⟨rfl, h.bump⟩

theorem nestingFrom (ha : code.Agrees k) (opener closer : List Char) {bound bound' depth : Nat}
    (hdepth : depth ≠ 0)
    (hc : (Cursor.nestingFrom code opener closer bound depth c).fault = none)
    (hd : (Cursor.nestingFrom code opener closer bound' depth d).fault = none)
    (h : Parallel k ms c d) : Parallel k ms (Cursor.nestingFrom code opener closer bound depth c)
      (Cursor.nestingFrom code opener closer bound' depth d) := by
  induction bound generalizing bound' depth c d with
  | zero => simp [Cursor.nestingFrom, fail] at hc
  | succ bound ih =>
    cases bound' with
    | zero => simp [Cursor.nestingFrom, fail] at hd
    | succ bound' =>
      have hs := h.skipUntil ha kindTest_nesting
      have hat := stop_skipUntil ha.lawful h.left kindTest_nesting
      revert hc hd
      unfold Cursor.nestingFrom
      dsimp only
      rw [hs.atEnd, hs.at?]
      generalize c.skipUntil code (fun c => c.at? .text || c.at? .openAngle) = e,
        d.skipUntil code (fun c => c.at? .text || c.at? .openAngle) = f at hs hat ⊢
      split
      · exact fun _ _ => hs
      · next hend =>
        split
        · exact fun hc hd => ih hdepth hc hd ((hs.flush .literal).looseTag ha)
        · next hopen =>
          have htext : e.current = .text := by
            have hstop := hat.resolve_left (ahead_ne_nil_of_not_atEnd hend)
            simpa [at?] using ((Bool.or_eq_true _ _).mp hstop).resolve_right hopen
          have hstep := hs.nestingText opener closer hdepth (by rw [htext]; decide)
          rw [hstep.1]
          split
          · exact fun _ _ => hstep.2
          · next hnext => exact fun hc hd => ih hnext hc hd hstep.2

theorem nestedBlock (ha : code.Agrees k) (nesting : Nesting) (h : Parallel k ms c d) :
    Parallel k ms (c.nestedBlock code nesting) (d.nestedBlock code nesting) := by
  have hfault {c : Cursor σ} {ms : List Marker} (hs : Sound False [.placeholder] ms c) :
      (Cursor.nestingFrom code nesting.opener.toList nesting.closer.toList (c.unclaimed + 1) 1
        c).fault = none :=
    (Reaches.nestingFrom ha.lawful _ _ (Nat.lt_succ_self _) Nat.one_ne_zero trivial
      (Reaches.refl hs)).sound.fault
  have hs := h.start
  exact ((hs.nestingFrom ha _ _ Nat.one_ne_zero (hfault hs.left) (hfault hs.right)).flush
    .literal).complete .markupBlock

end Parallel

end Cursor

end TemplateMarkup
