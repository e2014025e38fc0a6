import TemplateMarkup.Proofs.OpenFrames
import TemplateMarkup.Proofs.TagHeads

/-! # Tags that are read without a report

An end tag that is read in silence has its `>`. A script has its end tag, or the
source ends in it. A start tag is cut off by a `<`, or it has its `>` and is
complete, or stays open. For each there is the shape of what it adds, and from
these shapes `Between` goes through every tag. -/

namespace TemplateMarkup.Cursor

open Piece

variable {σ : Type} {code : EmbeddedCode σ} {c d : Cursor σ} {ps qs inner : List Piece}
  {t lt gt slash : Token} {rest : List Token} {name : List Char} {kind : Kind}
  {strict : Prop} {base : List Event} {ms : List Marker}

theorem isToken_leaf (hk : t.kind = kind) (ht : t.text ≠ []) : (leaf t).isToken kind = true := by
  simp [isToken, hk, ht]

theorem Sound.head_ne_nil (h : Sound strict base ms c) (ha : c.ahead = t :: rest) : t.text ≠ [] :=
  h.nonempty t (by simp [tokens, ha])

theorem Accepts.diagnostics (h : Accepts c d) : d.diagnostics = c.diagnostics := by
  obtain ⟨ts, hts, -⟩ := h
  exact hts.diagnostics

theorem report_ne_nil (c : Cursor σ) (problem : Problem) (range : Range) :
    (c.report problem range).diagnostics ≠ #[] := by
  rw [diagnostics_report]
  exact Array.push_ne_empty

/-! ## Ends of tags -/

/-- Where no `>` comes next, this is reported. -/
theorem closeAngle_cases (c : Cursor σ) (name : List Char) (range : Range) :
    (∃ gt rest, c.ahead = gt :: rest ∧ gt.kind = .closeAngle ∧
      c.closeAngle name range = (true, c.bump)) ∨
    (c.closeAngle name range).1 = false ∧ (c.closeAngle name range).2.diagnostics ≠ #[] := by
  by_cases hk : c.at? .closeAngle = true
  · obtain ⟨gt, rest, ha⟩ := List.exists_cons_of_ne_nil (ahead_ne_nil_of_at hk (by decide))
    have hgt : gt.kind = .closeAngle := by simpa [at?, current_cons ha] using hk
    exact .inl ⟨gt, rest, ha, hgt, closeAngle_of_ahead ha hgt name range⟩
  · have heat : c.eat .closeAngle = (false, c) := by rw [eat, if_neg hk]
    right
    unfold closeAngle
    rw [heat]
    refine ⟨rfl, ?_⟩
    show ((c.report _ range).flush .literal).diagnostics ≠ #[]
    rw [diagnostics_flush]
    exact report_ne_nil c _ range

theorem beginsText_append (h : beginsText ps = false) (h' : beginsText qs = false) :
    beginsText (ps ++ qs) = false := by
  cases ps with
  | nil => exact h'
  | cons p ps => cases p <;> exact h

theorem beginsText_leaves {ts : List Token} (h : ∀ t ∈ ts.head?, t.kind ≠ .text) :
    beginsText (ts.map leaf) = false := by
  cases ts with
  | nil => rfl
  | cons t ts => simpa [beginsText] using h t rfl

theorem isEndTag_eq (hlt : (leaf lt).isToken .openAngle = true)
    (hslash : (leaf slash).isToken .slash = true) (hgt : (leaf gt).isToken .closeAngle = true)
    {name' : List Char} (hname : tagName (ps ++ [leaf gt]) = name')
    (hsame : Text.sameIgnoringCase name' name = true) :
    isEndTag name (leaf lt :: leaf slash :: (ps ++ [leaf gt])) = true := by
  simp [isEndTag, hlt, hslash, hgt, hname, hsame]

/-- An end tag of the name is added as a block of its own. -/
def AddsEndTag (name : List Char) (c d : Cursor σ) : Prop :=
  ∃ inner, Adds [.part .tagBlock inner] c d ∧ (∀ p ∈ inner, p.Free) ∧ isEndTag name inner = true

/-- An end tag from its `</` through its `>`, which closes the block. -/
theorem addsEndTag (hs : Sound strict base ms c) (ha : c.ahead = lt :: slash :: rest)
    (hlt : lt.kind = .openAngle) (hslash : slash.kind = .slash)
    (hopen : Takes [lt, slash] [leaf lt, leaf slash] c.start.2 d) {e : Cursor σ}
    (hinner : Adds ps d e) (hfree : ∀ p ∈ ps, p.Free) {own : List Marker}
    (he : Sound strict base own e) (hheld : e.held = []) {gt : Token} {after : List Token}
    (hgta : e.ahead = gt :: after) (hgt : gt.kind = .closeAngle)
    (hname : Text.sameIgnoringCase (tagName (ps ++ [leaf gt])) name = true) :
    AddsEndTag name c (e.bump.complete c.start.1 .tagBlock) := by
  have hall := (hopen.adds.trans hinner).trans (Takes.bump hheld hgta).adds
  refine ⟨_, hall.node .tagBlock (by decide), fun p hp => ?_, ?_⟩
  · rcases List.mem_append.mp hp with hp | hp
    · rcases List.mem_append.mp hp with hp | hp
      · exact free_leaves [lt, slash] p hp
      · exact hfree p hp
    · exact free_leaves [gt] p hp
  · have hshape := isEndTag_eq (isToken_leaf hlt (hs.head_ne_nil ha))
      (isToken_leaf hslash (hs.nonempty slash (by simp [tokens, ha])))
      (isToken_leaf hgt (he.head_ne_nil hgta)) rfl hname
    simpa using hshape

theorem endTagBlock_silent (hs : Sound strict base ms c) (hh : c.held = [])
    (ha : c.ahead = lt :: slash :: rest) (hlt : lt.kind = .openAngle) (hslash : slash.kind = .slash)
    (hsame : Text.sameIgnoringCase (c.tagNameAt 2) name = true) (name' : List Char)
    (h : (c.endTagBlock name').2.diagnostics = #[]) : AddsEndTag name c (c.endTagBlock name').2 := by
  have hstart : c.start.2.ahead = [lt, slash] ++ rest := (ahead_start c).trans ha
  have hopen : Takes [lt, slash] [leaf lt, leaf slash] c.start.2 (c.start.2.bumpN 2) :=
    .bumpN ((held_start c).trans hh) hstart
  have hsound := ((Reaches.refl hs).start.bumpN 2).bangEscape.eatName.acceptUntil
    [.closeAngle, .openAngle]
  obtain ⟨nps, hread⟩ := name_read hopen.held
  obtain ⟨us, more, hahead, hus, hstop⟩ := run_split
    (fun t => !([.closeAngle, .openAngle] : List Kind).contains t.kind)
    (c.start.2.bumpN 2).bangEscape.eatName.ahead
  have hskip := Takes.bumpWhile hread.held hahead hus hstop
  have hname : (c.start.2.bumpN 2).tagNameAt 0 = c.tagNameAt 2 :=
    tagNameAt_of_drop (by rw [ahead_bumpN, ahead_start, List.drop_zero])
  unfold endTagBlock at h ⊢
  dsimp only at h ⊢
  rw [diagnostics_complete] at h
  rcases closeAngle_cases ((c.start.2.bumpN 2).bangEscape.eatName.acceptUntil
    [.closeAngle, .openAngle]) name' (.ofText (c.offset + 2) name') with
    ⟨gt, after, hgta, hgt, hclose⟩ | ⟨-, hreported⟩
  · rw [hclose]
    refine addsEndTag hs ha hlt hslash hopen (hread.adds.trans hskip.adds) ?_ hsound.sound
      hskip.held hgta hgt ?_
    · intro p hp
      rcases List.mem_append.mp hp with hp | hp
      · exact (hread.pieces p hp).1
      · exact free_leaves us p hp
    · have hfirst : ∀ t ∈ (us ++ [gt]).head?, t.kind ≠ .text := by
        have hmore : more = gt :: after := by rw [← hskip.ahead_eq hahead]; exact hgta
        intro t ht
        refine hread.stop t ?_
        rw [hahead, hmore]
        cases us <;> exact ht
      have htokens : us.map leaf ++ [leaf gt] = (us ++ [gt]).map leaf := by simp
      have hend : tagName ((nps ++ us.map leaf) ++ [leaf gt]) = c.tagNameAt 2 := by
        rw [List.append_assoc, htokens, hread.name _ (beginsText_leaves hfirst)
          (tagName_leaves hfirst), hname]
      exact hend ▸ hsame
  · exact absurd h hreported

/-! ## Scripts -/

/-- The name of a script has no `!`, so its end tag has none either. -/
theorem textRunAt_of_script {n : Nat} (hscript : ({} : Options).isScriptTag name = true)
    (hsame : Text.sameIgnoringCase (c.tagNameAt n) name = true) :
    c.tagNameAt n = c.textRunAt n ∧ c.textRunAt n ≠ [] := by
  have hfold : Text.foldCase (c.tagNameAt n) = Text.foldCase "script".toList :=
    (Text.sameIgnoringCase_iff.mp hsame).trans (Text.sameIgnoringCase_iff.mp hscript)
  cases hbang : c.bangEscapeAt n with
  | true =>
    rw [tagNameAt, hbang, if_pos rfl] at hfold
    have hhead := congrArg List.head? hfold
    simp [Text.foldCase] at hhead
  | false =>
    have hname : c.tagNameAt n = c.textRunAt n := by
      rw [tagNameAt, hbang, if_neg Bool.false_ne_true]
    refine ⟨hname, fun hnil => ?_⟩
    rw [hname, hnil] at hfold
    cases hfold

theorem scriptEnd_silent (he : code.Enclosing) (hl : code.Lawful strict fun _ => True)
    (hs : Sound strict base ms c) (hh : c.held = []) (hflag : c.context.ephemeralLineEnding = false)
    (ha : c.ahead = lt :: slash :: rest) (hlt : lt.kind = .openAngle) (hslash : slash.kind = .slash)
    (hscript : ({} : Options).isScriptTag name = true)
    (hsame : Text.sameIgnoringCase (c.tagNameAt 2) name = true) {range : Range}
    (h : ((((c.start.2.bumpN 2).eatName.skipTo code .closeAngle).closeAngle name range).2.complete
      c.start.1 .tagBlock).diagnostics = #[]) :
    AddsEndTag name c ((((c.start.2.bumpN 2).eatName.skipTo code .closeAngle).closeAngle name
      range).2.complete c.start.1 .tagBlock) := by
  have hstart : c.start.2.ahead = [lt, slash] ++ rest := (ahead_start c).trans ha
  have hopen : Takes [lt, slash] [leaf lt, leaf slash] c.start.2 (c.start.2.bumpN 2) :=
    .bumpN ((held_start c).trans hh) hstart
  obtain ⟨us, more, hrest, hus, hstop⟩ := text_split rest
  have hafter : (c.start.2.bumpN 2).ahead = us ++ more := by rw [hopen.ahead_eq hstart, hrest]
  have hname := Takes.eatName hopen.held hafter hus hstop
  obtain ⟨hrun, hne⟩ := textRunAt_of_script hscript hsame
  have hdrop : c.ahead.drop 2 = us ++ more := by rw [ha, ← hrest]; rfl
  rw [textRunAt_eq hdrop hus hstop] at hrun hne
  have hctx : (c.start.2.bumpN 2).eatName.context = c.context := by
    rw [hname.context_eq, hopen.context_eq]
    exact context_flush c _
  obtain ⟨ps, hscan, hfree, hbegins⟩ := skipTo_begins he (by rw [hctx, hflag]) .closeAngle
    hname.held (by rwa [hname.ahead_eq hafter])
  have hreach := ((Reaches.refl hs).start.bumpN 2).eatName
  have hheld := held_skipTo hl hreach.sound .closeAngle
  have hsound := hreach.skipTo hl.toStepwise .closeAngle trivial
  rw [diagnostics_complete] at h
  rcases closeAngle_cases ((c.start.2.bumpN 2).eatName.skipTo code .closeAngle) name range with
    ⟨gt, after, hgta, hgt, hclose⟩ | ⟨-, hreported⟩
  · rw [hclose]
    refine addsEndTag hs ha hlt hslash hopen (hname.adds.trans hscan) ?_ hsound.sound hheld hgta
      hgt ?_
    · intro p hp
      rcases List.mem_append.mp hp with hp | hp
      · exact free_leaves us p hp
      · exact hfree p hp
    · have hlast : beginsText (ps ++ [leaf gt]) = false :=
        beginsText_append hbegins (by simp [beginsText, hgt])
      have hend : tagName ((us.map leaf ++ ps) ++ [leaf gt]) = c.tagNameAt 2 := by
        obtain ⟨u, us, rfl⟩ : ∃ u us', us = u :: us' := by
          refine List.exists_cons_of_ne_nil fun hnil => hne ?_
          rw [hnil]
          rfl
        rw [hrun, List.append_assoc, ← textRun_append hus hlast]
        rfl
      rwa [hend]
  · exact absurd h hreported

/-- The tokens that an end tag begins with. -/
theorem exists_endTagStart (hlt : c.current = .openAngle) (hslash : c.nth 1 = .slash) :
    ∃ lt slash rest, c.ahead = lt :: slash :: rest ∧ lt.kind = .openAngle ∧
      slash.kind = .slash := by
  obtain ⟨lt, more, ha⟩ := List.exists_cons_of_ne_nil (ahead_ne_nil_of_nth hlt (by decide))
  cases more with
  | nil => simp [nth, ha, Token.kindAt] at hslash
  | cons slash rest =>
    exact ⟨lt, slash, rest, ha, (current_cons ha).symm.trans hlt, by
      simpa [nth, ha, Token.kindAt] using hslash⟩

/-- The shape of a script's body. -/
inductive ScriptBody (name : List Char) (c d : Cursor σ) : Prop
  /-- The source ends in it. -/
  | unended : Grows Free c d → d.rest = [] → ScriptBody name c d
  | ended {e : Cursor σ} : Grows Free c e → AddsEndTag name e d → ScriptBody name c d

theorem scriptBodyFrom_silent (he : code.Enclosing) (hl : code.Lawful strict fun _ => True) {bound : Nat}
    (hs : Sound strict base ms c) (hflag : c.context.ephemeralLineEnding = false)
    (hb : c.unclaimed < bound) (hscript : ({} : Options).isScriptTag name = true)
    (h : (scriptBodyFrom code name bound c).diagnostics = #[]) :
    ScriptBody name c (scriptBodyFrom code name bound c) := by
  induction bound generalizing c with
  | zero => exact absurd hb (Nat.not_lt_zero _)
  | succ bound ih =>
    have hgrows := grows_skipTo he hflag .openAngle
    have hreach := (Reaches.refl hs).skipTo hl.toStepwise .openAngle trivial
    have hheld := held_skipTo hl hs .openAngle
    have hat := at_skipTo hl hs .openAngle
    have hctx := hgrows.context
    unfold scriptBodyFrom at h ⊢
    dsimp only at h ⊢
    generalize c.skipTo code .openAngle = d at h hgrows hreach hheld hat hctx ⊢
    by_cases hend : d.atEnd = true
    · rw [if_pos hend]
      refine .unended hgrows ?_
      have hahead : d.ahead = [] := by simpa [atEnd] using hend
      simp [Cursor.rest, hheld, hahead]
    · rw [if_neg hend] at h ⊢
      have hne := ahead_ne_nil_of_not_atEnd hend
      split at h
      · next hclose =>
        rw [if_pos hclose]
        obtain ⟨lt, slash, rest, ha, hlt, hslash⟩ :=
          exists_endTagStart (hat.resolve_left hne) hclose.1
        exact .ended hgrows (scriptEnd_silent he hl hreach.sound hheld (by rw [hctx, hflag]) ha hlt
          hslash hscript hclose.2 h)
      · next hclose =>
        rw [if_neg hclose]
        have hbump := hgrows.trans ((Accepts.bump d).grows free_leaf)
        have hlt := hreach.sound.unclaimed_bump_lt hne
        have hle := hreach.gained
        have hbody := ih hreach.bump.sound (by rw [hbump.context, hflag]) (by omega) h
        cases hbody with
        | unended hgrows' hrest => exact .unended (hbump.trans hgrows') hrest
        | ended hgrows' hend => exact .ended (hbump.trans hgrows') hend

theorem scriptBody_silent (he : code.Enclosing) (hl : code.Lawful strict fun _ => True)
    (hs : Sound strict base ms c) (hflag : c.context.ephemeralLineEnding = false)
    (hscript : ({} : Options).isScriptTag name = true)
    (h : (c.scriptBody code name).diagnostics = #[]) : ScriptBody name c (c.scriptBody code name) :=
  scriptBodyFrom_silent he hl hs hflag (Nat.lt_succ_self _) hscript h

end TemplateMarkup.Cursor
