import TemplateMarkup.Proofs.Attributes
import TemplateMarkup.Proofs.FreeScans
import TemplateMarkup.Proofs.TagParts

/-! # What stands in the head of a tag

Between the `<` of a tag and its `>` there are a name and attributes. Whatever
is read as one, its pieces tell the name again, no angle is among them, and a
slash is the last of them only if it does not stand before a `>`. -/

namespace TemplateMarkup

/-- A piece that stands behind a tag's name: no tag block, no angle, and text only in a node. -/
structure Piece.Inner (p : Piece) : Prop where
  free : p.Free
  not_angle : p.isAngle = false
  not_text : ∀ t, p = .leaf t → t.kind ≠ .text

namespace Cursor

open Piece

variable {σ : Type} {code : EmbeddedCode σ} {c d e : Cursor σ} {ps qs : List Piece} {p : Piece}
  {ts us rest : List Token} {t : Token} {name : List Char} {nps : List Piece}
  {strict : Prop} {base : List Event} {ms : List Marker}

theorem inner_leaf (htext : t.kind ≠ .text) (hopen : t.kind ≠ .openAngle)
    (hclose : t.kind ≠ .closeAngle) : (leaf t).Inner where
  free := free_leaf t
  not_angle := by simp [isAngle, isToken, hopen, hclose]
  not_text u hu := by
    cases hu
    exact htext

theorem inner_of_enclosed (h : p.Enclosed) : p.Inner := by
  obtain ⟨hfree, kind, ps, rfl⟩ := h
  exact ⟨hfree, rfl, fun t ht => by cases ht⟩

/-! ## Names -/

theorem beginsText_inner (h : ∀ p ∈ ps, p.Inner) : beginsText ps = false := by
  cases ps with
  | nil => rfl
  | cons p ps =>
    cases p with
    | leaf t => simpa [beginsText] using (h _ (List.mem_cons_self ..)).not_text t rfl
    | part => rfl

theorem tagName_inner (h : ∀ p ∈ ps, p.Inner) : tagName ps = [] := by
  unfold tagName
  split
  · next qs =>
    have hbegins : beginsText qs = false := beginsText_inner fun q hq => h q (List.mem_cons_of_mem _ hq)
    rw [hbegins, if_neg Bool.false_ne_true]
  · exact textRun_of_begins (beginsText_inner h)

theorem tagName_leaves (h : ∀ t ∈ ts.head?, t.kind ≠ .text) : tagName (ts.map leaf) = [] := by
  cases ts with
  | nil => rfl
  | cons t ts => exact if_neg (h t rfl)

/-- A name that was read stands in the tree again, in front of what has none of its own. -/
theorem Written.tagName_append (hw : Written ts name nps) (hps : beginsText ps = false) :
    tagName (nps ++ ps) = name := by
  cases hw with
  | plain hne hts =>
    have hrun := textRun_append hts hps
    obtain ⟨t, ts, rfl⟩ := List.exists_cons_of_ne_nil hne
    exact hrun
  | @escaped t us ht hne hus =>
    have hrun := textRun_append hus hps
    obtain ⟨u, us, rfl⟩ := List.exists_cons_of_ne_nil hne
    have hu := hus u (List.mem_cons_self ..)
    have hbegins : beginsText (List.map leaf (u :: us) ++ ps) = true := by simp [beginsText, hu]
    rw [List.cons_append, tagName, if_pos hbegins, hrun]

theorem Written.pieces (hw : Written ts name nps) :
    ∀ p ∈ nps, p.Free ∧ p.isAngle = false ∧ p.isToken .slash = false := by
  have hleaves {ts : List Token} (hts : ∀ t ∈ ts, t.kind = .text) :
      ∀ p ∈ ts.map leaf, p.Free ∧ p.isAngle = false ∧ p.isToken .slash = false := by
    intro p hp
    obtain ⟨t, ht, rfl⟩ := List.mem_map.mp hp
    exact ⟨free_leaf t, by simp [isAngle, isToken, hts t ht], by simp [isToken, hts t ht]⟩
  cases hw with
  | plain _ hts => exact hleaves hts
  | @escaped t us ht _ hus =>
    intro p hp
    rcases List.mem_cons.mp hp with rfl | hp
    · exact ⟨free_part (by decide) (free_leaves [t]), rfl, rfl⟩
    · exact hleaves hus p hp

/-- The tokens that come first and pass a test, and what comes after them. -/
theorem run_split (test : Token → Bool) (ts : List Token) : ∃ us rest, ts = us ++ rest ∧
    (∀ u ∈ us, test u = true) ∧ ∀ t ∈ rest.head?, test t = false := by
  obtain ⟨hts, hus, hrest⟩ := run_spec test ts
  exact ⟨_, _, hts.symm, hus, hrest⟩

theorem text_split (ts : List Token) : ∃ us rest, ts = us ++ rest ∧ (∀ u ∈ us, u.kind = .text) ∧
    ∀ t ∈ rest.head?, t.kind ≠ .text := by
  obtain ⟨us, rest, hts, hus, hstop⟩ := run_split (·.kind == .text) ts
  exact ⟨us, rest, hts, by simpa using hus, by simpa using hstop⟩

/-- Either a name comes next, or nothing that could be a part of one. -/
theorem name_cases (c : Cursor σ) :
    (∃ ts rest name nps, Written ts name nps ∧ c.ahead = ts ++ rest ∧
      ∀ t ∈ rest.head?, t.kind ≠ .text) ∨
    c.bangEscapeAt 0 = false ∧ ∀ t ∈ c.ahead.head?, t.kind ≠ .text := by
  cases hbang : c.bangEscapeAt 0 with
  | true =>
    left
    simp only [bangEscapeAt, Bool.and_eq_true, beq_iff_eq, Bool.not_eq_true'] at hbang
    obtain ⟨⟨hk, hnext⟩, hdoctype⟩ := hbang
    obtain ⟨t, more, ha⟩ := List.exists_cons_of_ne_nil (ahead_ne_nil_of_nth hk (by decide))
    obtain ⟨us, rest, hmore, hus, hstop⟩ := text_split more
    have hdrop : c.ahead.drop 1 = us ++ rest := by rw [ha, hmore]; rfl
    have hne : us ≠ [] := by
      rintro rfl
      have hkind : Token.kindAt rest 0 = .text := (nth_eq hdrop).symm.trans hnext
      cases rest with
      | nil => cases hkind
      | cons u rest => exact hstop u rfl hkind
    refine ⟨t :: us, rest, _, _, .escaped ?_ hne hus ?_, by rw [ha, hmore]; rfl, hstop⟩
    · have hfirst : c.ahead.drop 0 = t :: more := ha
      rw [← hk, nth_eq hfirst]
      rfl
    · obtain ⟨u, us, rfl⟩ := List.exists_cons_of_ne_nil hne
      rw [nthText_eq hdrop] at hdoctype
      exact hdoctype
  | false =>
    obtain ⟨us, rest, ha, hus, hstop⟩ := text_split c.ahead
    cases us with
    | nil => exact .inr ⟨rfl, by rwa [ha]⟩
    | cons u us => exact .inl ⟨_, rest, _, _, .plain (List.cons_ne_nil u us) hus, ha, hstop⟩

/-- What is read where a name may stand, and the name that the tree tells again. -/
structure NameRead (c d : Cursor σ) (ps : List Piece) : Prop where
  adds : Adds ps c d
  held : d.held = []
  pieces : ∀ p ∈ ps, p.Free ∧ p.isAngle = false ∧ p.isToken .slash = false
  name : ∀ qs, beginsText qs = false → tagName qs = [] → tagName (ps ++ qs) = c.tagNameAt 0
  stop : ∀ t ∈ d.ahead.head?, t.kind ≠ .text

theorem name_read (hh : c.held = []) : ∃ ps, NameRead c c.bangEscape.eatName ps := by
  rcases name_cases c with ⟨ts, rest, name, nps, hw, ha, hstop⟩ | ⟨hbang, hstop⟩
  · have htakes := Takes.written hw hh ha hstop
    refine ⟨nps, htakes.adds, htakes.held, hw.pieces, fun qs hqs _ => ?_, ?_⟩
    · rw [hw.tagName_append hqs]
      exact (hw.tagNameAt_eq (n := 0) ha hstop).symm
    · rwa [htakes.ahead_eq ha]
  · have hsame : c.bangEscape.eatName = c := by
      rw [bangEscape, hbang, if_neg Bool.false_ne_true]
      exact bumpWhile_of_head fun t ht => by simpa using hstop t ht
    have hname : c.tagNameAt 0 = [] := by
      have hline : c.ahead.drop 0 = [] ++ c.ahead := rfl
      rw [tagNameAt, hbang, if_neg Bool.false_ne_true]
      exact textRunAt_eq hline (fun t ht => absurd ht List.not_mem_nil) hstop
    rw [hsame]
    exact ⟨[], Adds.refl c, hh, fun _ hp => absurd hp List.not_mem_nil,
      fun qs _ hqs => by rw [List.nil_append, hqs, hname], hstop⟩

/-! ## Attributes -/

/-- Whether a slash is the last of the pieces. -/
def endsInSlash (ps : List Piece) : Bool := ps.getLast?.any (·.isToken .slash)

/-- What is read where attributes may stand. -/
structure HeadRead (c d : Cursor σ) : Prop where
  pieces : ∃ ps, Adds ps c d ∧ (∀ p ∈ ps, p.Inner) ∧
    (d.current = .closeAngle → endsInSlash ps = false) ∧ (ps = [] → d.ahead = c.ahead)
  held : d.held = []

namespace HeadRead

theorem refl (hh : c.held = []) : HeadRead c c :=
  ⟨⟨[], Adds.refl c, fun _ hp => absurd hp List.not_mem_nil, fun _ => rfl, fun _ => rfl⟩, hh⟩

theorem trans (h : HeadRead c d) (h' : HeadRead d e) : HeadRead c e := by
  obtain ⟨ps, hps, hinner, hslash, hsame⟩ := h.pieces
  obtain ⟨qs, hqs, hinner', hslash', hsame'⟩ := h'.pieces
  refine ⟨⟨ps ++ qs, hps.trans hqs, fun p hp => ?_, fun hclose => ?_, fun hnil => ?_⟩, h'.held⟩
  · rcases List.mem_append.mp hp with hp | hp
    · exact hinner p hp
    · exact hinner' p hp
  · by_cases hq : qs = []
    · have hcurrent : d.current = .closeAngle := by
        rw [← hclose, current, current, nth, nth, hsame' hq]
      rw [hq, List.append_nil]
      exact hslash hcurrent
    · have hlast := hslash' hclose
      rw [endsInSlash, List.getLast?_eq_some_getLast hq] at hlast
      rw [endsInSlash, List.getLast?_append, List.getLast?_eq_some_getLast hq]
      exact hlast
  · obtain ⟨hp, hq⟩ := List.append_eq_nil_iff.mp hnil
    rw [hsame' hq, hsame hp]

theorem context (h : HeadRead c d) : d.context = c.context := by
  obtain ⟨ps, hps, -⟩ := h.pieces
  exact hps.context

/-- Nodes of their own are no slashes. -/
theorem of_enclosed (hps : Adds ps c d) (henclosed : ∀ p ∈ ps, p.Enclosed) (hne : ps ≠ [])
    (hh : d.held = []) : HeadRead c d := by
  refine ⟨⟨ps, hps, fun p hp => inner_of_enclosed (henclosed p hp), fun _ => ?_,
    fun hnil => absurd hnil hne⟩, hh⟩
  obtain ⟨-, kind, inner, hlast⟩ := henclosed _ (List.getLast_mem hne)
  rw [endsInSlash, List.getLast?_eq_some_getLast hne, hlast]
  rfl

theorem of_encloses (h : Encloses c d) (hne : c.ahead ≠ []) : HeadRead c d := by
  obtain ⟨ps, hps, henclosed, hsome⟩ := h.pieces
  exact of_enclosed hps henclosed (hsome hne) h.held

theorem flush_literal (h : HeadRead (c.flush .literal) d) : HeadRead c d := by
  obtain ⟨ps, hps, hinner, hslash, hsame⟩ := h.pieces
  have hadds := (Adds.flush_literal c).trans hps
  exact ⟨⟨ps, hadds, hinner, hslash, fun hnil => by rw [hsame hnil, ahead_flush]⟩, h.held⟩

/-- A token between attributes; a slash must not stand before the `>`. -/
theorem bump (hh : c.held = []) (ha : c.ahead = t :: rest) (htext : t.kind ≠ .text)
    (hopen : t.kind ≠ .openAngle) (hclose : t.kind ≠ .closeAngle)
    (hslash : t.kind = .slash → Token.kindAt rest 0 ≠ .closeAngle) : HeadRead c c.bump := by
  have htake := Takes.bump hh ha
  have hinner := inner_leaf htext hopen hclose
  refine ⟨⟨_, htake.adds, by simpa using hinner, fun hcurrent => ?_,
    fun hnil => absurd hnil (List.cons_ne_nil _ _)⟩, htake.held⟩
  have hkind : t.kind ≠ .slash := by
    intro hk
    refine hslash hk ?_
    rw [← hcurrent, current, nth, htake.ahead_eq ha]
  simp [endsInSlash, isToken, hkind]

theorem spacing (hh : c.held = []) : HeadRead c (c.bumpWhile (·.kind.isTrivia)) := by
  obtain ⟨us, rest, ha, hus, hstop⟩ := run_split (·.kind.isTrivia) c.ahead
  have htakes := Takes.bumpWhile hh ha hus hstop
  have hkind {u : Token} (hu : u ∈ us) (kind : Kind) (hk : kind.isTrivia = false) : u.kind ≠ kind := by
    rintro rfl
    exact Bool.noConfusion ((hus u hu).symm.trans hk)
  refine ⟨⟨_, htakes.adds, fun p hp => ?_, fun _ => ?_, fun hnil => ?_⟩, htakes.held⟩
  · obtain ⟨u, hu, rfl⟩ := List.mem_map.mp hp
    exact inner_leaf (hkind hu _ rfl) (hkind hu _ rfl) (hkind hu _ rfl)
  · cases hlast : us.getLast? with
    | none => simp [endsInSlash, List.getLast?_map, hlast]
    | some u =>
      have hu := hkind (List.mem_of_getLast? hlast) .slash rfl
      simp [endsInSlash, List.getLast?_map, hlast, isToken, hu]
  · rw [htakes.ahead_eq ha, ha, List.map_eq_nil_iff.mp hnil]
    rfl

end HeadRead

theorem grows_attributeValue (he : code.Enclosing) (hflag : c.context.ephemeralLineEnding = false) :
    Grows Free c (c.attributeValue code).2 := by
  have hvalue {d e : Cursor σ} (h : Grows Free d.start.2 e) :
      Grows Free d (e.complete d.start.1 .attributeValue) :=
    h.node .attributeValue (by decide) fun ps => free_part (by decide)
  unfold attributeValue
  dsimp only
  split
  · have hbump := (Accepts.bump c).grows (P := Free) free_leaf
    have hctx : c.bump.start.2.context = c.context := (context_flush _ _).trans (context_bump c)
    have hscan := hvalue (grows_skipTo (c := c.bump.start.2) he (by rw [hctx, hflag]) c.current)
    exact (hbump.trans hscan).trans ((Accepts.eat _ _).grows free_leaf)
  · have hctx : c.start.2.context = c.context := context_flush c _
    exact hvalue (grows_skipUntil he (by rw [hctx, hflag]) _)

/-- An attribute is a node of its own. -/
theorem HeadRead.readAttribute (he : code.Enclosing) (hl : code.Lawful strict fun _ => True)
    (h : Sound strict base ms c) (hh : c.held = []) (hflag : c.context.ephemeralLineEnding = false) :
    HeadRead c (c.readAttribute code).2 := by
  have hnode {d : Cursor σ} (hgrows : Grows Free c.start.2 d) (hheld : d.held = []) :
      HeadRead c (d.complete c.start.1 .attributeBlock) := by
    obtain ⟨ps, hps, hfree⟩ := hgrows
    have henclosed : (Piece.part .attributeBlock ps).Enclosed := enclosed_part (by decide) hfree
    exact of_enclosed (hps.node .attributeBlock (by decide)) (by simpa using henclosed)
      (List.cons_ne_nil _ _) ((held_complete _ _ _).trans hheld)
  have hname := Accepts.bumpWhile c.start.2 (!·.kind.endsAttributeName)
  have hsound := (Reaches.refl h).start.bumpWhile (!·.kind.endsAttributeName)
  have hheld := held_bumpN ((held_start c).trans hh)
    (c.start.2.runLength (!·.kind.endsAttributeName) 0)
  have hctx : c.start.2.context = c.context := context_flush c _
  unfold Cursor.readAttribute
  dsimp only
  split
  · generalize (c.start.2.bumpWhile (!·.kind.endsAttributeName)).runLength
      (·.kind == .whitespace) 0 = blanks
    have hequals := (hname.trans (.bumpN _ (blanks + 1))).trans (.bumpWhile _ (·.kind == .whitespace))
    have hsound' := ((hsound.bumpN (blanks + 1)).bumpWhile (·.kind == .whitespace)).sound
    have hgrows := hequals.grows (P := Free) free_leaf
    exact hnode (hgrows.trans (grows_attributeValue he (by rw [hgrows.context, hctx, hflag])))
      (held_attributeValue hl.toStepwise hsound' trivial)
  · exact hnode (hname.grows free_leaf) hheld

theorem attributesFrom_headRead (he : code.Enclosing) (hl : code.Lawful strict fun _ => True) {bound : Nat}
    (h : Sound strict base ms c) (hh : c.held = []) (hflag : c.context.ephemeralLineEnding = false) :
    HeadRead c (attributesFrom code bound c).2 := by
  induction bound generalizing c with
  | zero =>
    exact ⟨⟨[], Adds.fail c _, fun _ hp => absurd hp List.not_mem_nil, fun _ => rfl, fun _ => rfl⟩,
      hh⟩
  | succ bound ih =>
    have hsound := ((Reaches.refl h).bumpWhile (·.kind.isTrivia))
    have htrivia {t rest} := @test_of_ahead_bumpWhile σ c (·.kind.isTrivia) t rest
    have hspacing := HeadRead.spacing hh
    refine hspacing.trans ?_
    have hd := hspacing.held
    have hflag' : (c.bumpWhile (·.kind.isTrivia)).context.ephemeralLineEnding = false := by
      rw [hspacing.context, hflag]
    unfold attributesFrom
    dsimp only
    generalize c.bumpWhile (·.kind.isTrivia) = d at hsound htrivia hd hflag' ⊢
    have hgo {e : Cursor σ} (hread : HeadRead d e) (hreach : Reaches strict base c ms 0 e ms) :
        HeadRead d (attributesFrom code bound e).2 :=
      hread.trans (ih hreach.sound hread.held (by rw [hread.context, hflag']))
    have hbump {kind : Kind} (hk : d.current = kind) (htext : kind ≠ .text)
        (hend : kind ≠ .endOfInput) (hopen : kind ≠ .openAngle) (hclose : kind ≠ .closeAngle)
        (hslash : kind = .slash → d.nth 1 ≠ .closeAngle) :
        HeadRead d (attributesFrom code bound d.bump).2 := by
      obtain ⟨t, rest, ha⟩ := List.exists_cons_of_ne_nil (ahead_ne_nil_of_nth hk hend)
      rw [current_cons ha] at hk
      subst hk
      refine hgo (.bump hd ha htext hopen hclose fun hk => ?_) hsound.bump
      have hnext := hslash hk
      have hdrop : d.ahead.drop 1 = rest := by rw [ha]; rfl
      rwa [nth_eq hdrop] at hnext
    have hflushed : (d.flush .literal).held = [] := (held_flush d _).trans hd
    split
    · exact .refl hd
    · exact .refl hd
    · exact .refl hd
    · next hk =>
      split
      · exact .refl hd
      · next hnext =>
        exact hbump hk (by decide) (by decide) (by decide) (by decide) fun _ hclose =>
          hnext (.inl hclose)
    · next hk =>
      have hne := ahead_ne_nil_of_nth hk (by decide)
      exact hgo (.flush_literal (.of_encloses (he.block hflushed (pending_flush d _)) (by simpa)))
        ((hsound.flush .literal).codeBlock hl.toStepwise trivial)
    · next hk =>
      have hne := ahead_ne_nil_of_nth hk (by decide)
      exact hgo (.flush_literal (.of_encloses (he.comment hflushed (pending_flush d _)) (by simpa)))
        ((hsound.flush .literal).codeComment hl.toStepwise trivial)
    iterate 3
      · next hk =>
        exact hbump hk (by decide) (by decide) (by decide) (by decide) fun hs => by cases hs
    · next h1 h2 h3 h4 h5 h6 h7 h8 h9 =>
      obtain ⟨t, rest, ha⟩ : ∃ t rest, d.ahead = t :: rest := by
        refine List.exists_cons_of_ne_nil fun ha => h1 ?_
        simp [current, nth, Token.kindAt, ha]
      rw [current_cons ha] at h1 h2 h3 h4 h5 h6 h7 h8 h9
      have hname := endsAttributeName_eq_false (htrivia ha) h1 h2 h3 h4 h5 h6 h7 h8 h9
      exact hgo (.readAttribute he hl hsound.sound hd hflag')
        ((hsound.readAttribute hl.toStepwise trivial ha hname).1.weaken (Nat.le_succ _))

theorem attributes_headRead (he : code.Enclosing) (hl : code.Lawful strict fun _ => True)
    (h : Sound strict base ms c) (hh : c.held = []) (hflag : c.context.ephemeralLineEnding = false) :
    HeadRead c (c.attributes code).2 := attributesFrom_headRead he hl h hh hflag

end Cursor

end TemplateMarkup
