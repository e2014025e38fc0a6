import TemplateMarkup.Proofs.SilentTags

/-! # Start tags that are read without a report

A start tag that meets a `<` before its `>` ends there, and nobody is told. Any
other has its `>` or is reported. With its `>` it closes itself, or is void, or
is a script and takes its body along, or stays open; in each case `Between`
holds behind it. -/

namespace TemplateMarkup.Cursor

open Piece

variable {σ : Type} {code : EmbeddedCode σ} {c d e : Cursor σ} {tags : OpenTags} {m : Marker}
  {outer : List Frame} {head content : List Piece} {lt gt : Token} {name after : List Char}
  {strict : Prop} {base : List Event} {ms : List Marker}

/-! ## The shapes of a start tag -/

/-- What a start tag adds up to its `>`. -/
structure Headed (name : List Char) (lt gt : Piece) (head : List Piece) : Prop where
  free : ∀ p ∈ lt :: (head ++ [gt]), p.Free
  angles : ∀ p ∈ head, p.isAngle = false
  gt : gt.isToken .closeAngle = true
  name : tagName head = name

namespace Headed

variable {lt gt : Piece}

theorem opens (h : Headed name lt gt head) : Opens name (lt :: (head ++ [gt])) :=
  ⟨lt, head, gt, [], rfl, h.angles, h.gt, h.name⟩

theorem closed (h : Headed name lt gt head) (content : List Piece) (after : List Char) :
    TagBlock.closed ⟨lt :: (head ++ gt :: content), after⟩ = true ∧
      TagBlock.name ⟨lt :: (head ++ gt :: content), after⟩ = name ∧
      TagBlock.selfClosing ⟨lt :: (head ++ gt :: content), after⟩ = endsInSlash head := by
  obtain ⟨heq, hclosed⟩ := TagBlock.head_eq lt content after h.angles h.gt
  exact ⟨hclosed, by rw [TagBlock.name, heq, h.name], by rw [TagBlock.selfClosing, heq]; rfl⟩

theorem selfClosed (h : Headed name lt gt head) (hslash : endsInSlash head = true) :
    TagBlock.Settled ⟨lt :: (head ++ gt :: content), after⟩ := by
  intro _
  obtain ⟨hclosed, -, hself⟩ := h.closed content after
  exact .inl ⟨hclosed, .inl (hself.trans hslash)⟩

theorem void (h : Headed name lt gt head) (hvoid : ({} : Options).isVoidElement name = true) :
    TagBlock.Settled ⟨lt :: (head ++ gt :: content), after⟩ := by
  intro _
  obtain ⟨hclosed, hname, -⟩ := h.closed content after
  exact .inl ⟨hclosed, .inr (.inl (by rw [hname, hvoid]))⟩

/-- A script with nothing but text behind its tag, at the end of the source. -/
theorem openScript (h : Headed name lt gt head) (hslash : endsInSlash head = false)
    (hscript : ({} : Options).isScriptTag name = true) (hcontent : ∀ p ∈ content, p.Free) :
    TagBlock.Settled ⟨lt :: (head ++ gt :: content), []⟩ := by
  intro _
  obtain ⟨hclosed, hname, hself⟩ := h.closed content []
  have hfree : ∀ p ∈ lt :: (head ++ gt :: content), p.Free := by
    have htag := h.free
    simp only [List.mem_cons, List.mem_append] at htag ⊢
    rintro p (hp | hp | hp | hp)
    · exact htag p (.inl hp)
    · exact htag p (.inr (.inl hp))
    · exact htag p (.inr (.inr (.inl hp)))
    · exact hcontent p hp
  exact .inr (.inr ⟨hclosed, hself.trans hslash, by rw [hname, hscript], innerTags_free hfree, rfl⟩)

end Headed

theorem settled_cutOff {lt : Piece} (h : ∀ p ∈ head, p.isAngle = false)
    (hafter : after.head? = some '<') : TagBlock.Settled ⟨lt :: head, after⟩ := by
  intro _
  exact .inr (.inl ⟨TagBlock.closed_eq_false h, hafter⟩)

theorem endsInSlash_append {ps qs : List Piece} (hps : ∀ p ∈ ps, p.isToken .slash = false)
    (hqs : endsInSlash qs = false) : endsInSlash (ps ++ qs) = false := by
  by_cases hq : qs = []
  · rw [hq, List.append_nil, endsInSlash]
    cases hlast : ps.getLast? with
    | none => rfl
    | some p => exact hps p (List.mem_of_getLast? hlast)
  · rw [endsInSlash, List.getLast?_eq_some_getLast hq] at hqs
    rw [endsInSlash, List.getLast?_append, List.getLast?_eq_some_getLast hq]
    exact hqs

theorem endsInSlash_append_true {ps qs : List Piece} (hqs : endsInSlash qs = true) :
    endsInSlash (ps ++ qs) = true := by
  cases hlast : qs.getLast? with
  | none =>
    rw [endsInSlash, hlast] at hqs
    cases hqs
  | some p =>
    rw [endsInSlash, hlast] at hqs
    rw [endsInSlash, List.getLast?_append, hlast]
    exact hqs

/-! ## Reading -/

theorem grows_voidEndTag (c : Cursor σ) (name : List Char) : Grows Free c (c.voidEndTag name) := by
  unfold voidEndTag
  dsimp only
  split
  · exact ((((Accepts.bumpN c _).trans (.bumpWhile _ _)).trans (.bumpWhile _ _)).trans
      (.eat _ _)).grows free_leaf |>.flush_literal
  · exact .refl c

/-- The cursor behind a tag's name, with what was added since its node was started. -/
structure Named (c : Cursor σ) (name : List Char) (lt : Token) (nps : List Piece) (d : Cursor σ) :
    Prop where
  adds : Adds (leaf lt :: nps) c.start.2 d
  held : d.held = []
  pieces : ∀ p ∈ nps, p.Free ∧ p.isAngle = false ∧ p.isToken .slash = false
  name : ∀ qs, beginsText qs = false → tagName qs = [] → tagName (nps ++ qs) = name

theorem named (hh : c.held = []) {rest : List Token} (ha : c.ahead = lt :: rest) :
    ∃ nps, Named c (c.tagNameAt 1) lt nps c.start.2.bump.bangEscape.eatName := by
  have hopen : Takes [lt] [leaf lt] c.start.2 c.start.2.bump :=
    .bump ((held_start c).trans hh) ((ahead_start c).trans ha)
  obtain ⟨nps, hread⟩ := name_read hopen.held
  have hname : c.start.2.bump.tagNameAt 0 = c.tagNameAt 1 :=
    tagNameAt_of_drop (by rw [ahead_bump, ahead_start, List.drop_one, List.drop_zero])
  exact ⟨nps, hopen.adds.trans hread.adds, hread.held, hread.pieces,
    fun qs hqs hnil => by rw [hread.name qs hqs hnil, hname]⟩

/-- Attributes and the slash behind them, if there is one. -/
theorem HeadRead.slash (h : HeadRead d e) (hs : Sound strict base ms e) :
    ∃ selfClosing f ps, e.eat .slash = (selfClosing, f) ∧ Adds ps d f ∧ (∀ p ∈ ps, p.Inner) ∧
      f.held = [] ∧ (selfClosing = true → endsInSlash ps = true) ∧
      (selfClosing = false → f.current = .closeAngle → endsInSlash ps = false) := by
  obtain ⟨ps, hps, hinner, hslash, -⟩ := h.pieces
  by_cases hk : e.at? .slash = true
  · obtain ⟨t, rest, ha⟩ := List.exists_cons_of_ne_nil (ahead_ne_nil_of_at hk (by decide))
    have ht : t.kind = .slash := by simpa [at?, current_cons ha] using hk
    obtain ⟨heat, htake⟩ := Takes.eat_true h.held ha ht
    have hlast : (leaf t).Inner := inner_leaf (by simp [ht]) (by simp [ht]) (by simp [ht])
    refine ⟨true, e.bump, ps ++ [leaf t], heat, hps.trans htake.adds, fun p hp => ?_, htake.held,
      fun _ => ?_, fun hs => Bool.noConfusion hs⟩
    · rcases List.mem_append.mp hp with hp | hp
      · exact hinner p hp
      · rwa [List.mem_singleton.mp hp]
    · simp [endsInSlash, isToken_leaf ht (hs.head_ne_nil ha)]
  · exact ⟨false, e, ps, by rw [eat, if_neg hk], hps, hinner, h.held,
      fun hs => Bool.noConfusion hs, fun _ => hslash⟩

theorem Named.free (hn : Named c name lt head d) {ps : List Piece} (hinner : ∀ p ∈ ps, p.Inner) :
    ∀ p ∈ leaf lt :: (head ++ ps), p.Free := by
  refine List.forall_mem_cons.mpr ⟨free_leaf lt, List.forall_mem_append.mpr ⟨?_, ?_⟩⟩
  · exact fun p hp => (hn.pieces p hp).1
  · exact fun p hp => (hinner p hp).free

theorem Named.cutOff (hn : Named c name lt head d) (hb : Between m outer c tags)
    (hread : HeadRead d e) (hat : e.at? .openAngle = true) :
    Between m outer (e.complete c.start.1 .tagBlock) tags := by
  obtain ⟨ps, hps, hinner, -⟩ := hread.pieces
  have hadds : Adds (leaf lt :: (head ++ ps)) c.start.2 e := hn.adds.trans hps
  obtain ⟨n, os, fs, hview, -⟩ := hb.frames
  obtain ⟨t, rest, ha⟩ := List.exists_cons_of_ne_nil (ahead_ne_nil_of_at hat (by decide))
  have ht : t.kind = .openAngle := by simpa [at?, current_cons ha] using hat
  have hsane := (hadds.view hview.start).sane t (by simp [tokens, ha])
  refine hb.block hadds (allSettled_free (hn.free hinner)) (settled_cutOff (fun p hp => ?_) ?_)
  · rcases List.mem_append.mp hp with hp | hp
    · exact (hn.pieces p hp).2.1
    · exact (hinner p hp).not_angle
  · simp [Cursor.rest, hread.held, ha, hsane.text_of_openAngle ht]

/-- A start tag through its `>`. -/
theorem Named.headed (hn : Named c name lt head d) {ps : List Piece} (hinner : ∀ p ∈ ps, p.Inner)
    (hgt : (leaf gt).isToken .closeAngle = true) :
    Headed name (leaf lt) (leaf gt) (head ++ ps) where
  free p hp := by
    simp only [List.mem_cons, List.mem_append, List.not_mem_nil, or_false] at hp
    rcases hp with rfl | (hp | hp) | rfl
    · exact free_leaf lt
    · exact (hn.pieces p hp).1
    · exact (hinner p hp).free
    · exact free_leaf gt
  angles p hp := by
    rcases List.mem_append.mp hp with hp | hp
    · exact (hn.pieces p hp).2.1
    · exact (hinner p hp).not_angle
  gt := hgt
  name := hn.name ps (beginsText_inner hinner) (tagName_inner hinner)

/-- The pieces of a start tag through its `>`. -/
theorem Named.closed (hn : Named c name lt head d) (hread : HeadRead d (d.attributes code).2)
    (hs : Sound strict base ms (d.attributes code).2) {start : Nat}
    (hclosed : (d.throughHead code name start).1 = true) :
    ∃ gt inside, Headed name (leaf lt) gt inside ∧
      Adds (leaf lt :: (inside ++ [gt])) c.start.2 (d.behindHead code name start) ∧
      endsInSlash inside = ((d.attributes code).2.eat .slash).1 ∧
      Sound strict base ms (d.behindHead code name start) := by
  obtain ⟨selfClosing, f, ps, heat, hps, hinner, hheld, hslash, hplain⟩ := hread.slash hs
  have hsound : Sound strict base ms f := by
    have hsound := ((Reaches.refl hs).eat .slash).sound
    rwa [heat] at hsound
  rw [throughHead, heat] at hclosed
  rcases closeAngle_cases f name ⟨start + 1, start + 1 + max (Text.width name) 1⟩ with
    ⟨gt, rest, ha, hgt, hclose⟩ | ⟨hopen, -⟩
  · have hall := ((hn.adds.trans hps).trans (Takes.bump hheld ha).adds).trans (Adds.flush_literal _)
    rw [behindHead, throughHead, heat, hclose]
    refine ⟨leaf gt, head ++ ps, hn.headed hinner (isToken_leaf hgt (hsound.head_ne_nil ha)),
      by simpa using hall, ?_, ((Reaches.refl hsound).bump.flush .literal).sound⟩
    cases selfClosing with
    | true => exact endsInSlash_append_true (hslash rfl)
    | false =>
      exact endsInSlash_append (fun p hp => (hn.pieces p hp).2.2)
        (hplain rfl ((current_cons ha).trans hgt))
  · rw [hopen] at hclosed
    cases hclosed

/-- A `>` that is missing is reported. -/
theorem throughHead_reports {start : Nat} (h : (d.throughHead code name start).1 = false) :
    (d.throughHead code name start).2.diagnostics ≠ #[] := by
  rcases closeAngle_cases ((d.attributes code).2.eat .slash).2 name
    ⟨start + 1, start + 1 + max (Text.width name) 1⟩ with ⟨_, _, _, _, hclose⟩ | ⟨-, hreported⟩
  · rw [throughHead, hclose] at h
    cases h
  · exact hreported

/-- A script with its body, whether or not this has an end. -/
theorem Headed.scriptBody {lt gt : Piece} (h : Headed name lt gt head) (hb : Between m outer c tags)
    (hadds : Adds (lt :: (head ++ [gt])) c.start.2 d) (hslash : endsInSlash head = false)
    (hscript : ({} : Options).isScriptTag name = true) (hbody : ScriptBody name d e) :
    Between m outer (e.complete c.start.1 .tagBlock) tags := by
  cases hbody with
  | unended hgrows hrest =>
    obtain ⟨ps, hps, hfree⟩ := hgrows
    have hshape : lt :: (head ++ [gt]) ++ ps = lt :: (head ++ gt :: ps) := by simp
    have hall := hadds.trans hps
    refine hb.block hall (allSettled_append.mpr ⟨allSettled_free h.free, allSettled_free hfree⟩) ?_
    rw [hshape, hrest]
    exact h.openScript hslash hscript hfree
  | @ended f hgrows hend =>
    obtain ⟨ps, hps, hfree⟩ := hgrows
    obtain ⟨inner, hinner, hfree', hend⟩ := hend
    have hall := (hadds.trans hps).trans hinner
    refine hb.block hall ?_ ((h.opens.append ps).settled hend)
    refine allSettled_append.mpr ⟨allSettled_append.mpr ⟨allSettled_free h.free, allSettled_free hfree⟩, ?_⟩
    exact allSettled_tagBlock (settled_of_isEndTag hend) (allSettled_free hfree')

/-- The state of a walk that is there. -/
theorem Between.walk (h : Between m outer c tags) (complete : Bool) :
    Between m outer (TagWalk.mk c tags complete).cursor (TagWalk.mk c tags complete).openTags := h

theorem Between.restOfStartTag (he : code.Enclosing) (hl : code.Lawful strict fun _ => True)
    (hb : Between m outer c tags) (hn : Named c name lt head d) (hs : Sound strict base ms d)
    (hplace : tags = [] → ({} : Options).isTextTag name = false) (start : Nat)
    (h : (d.restOfStartTag code tags c.start.1 name start).cursor.diagnostics = #[]) :
    Between m outer (d.restOfStartTag code tags c.start.1 name start).cursor
      (d.restOfStartTag code tags c.start.1 name start).openTags := by
  have hctx : d.context = {} := hn.adds.context.trans ((context_flush c _).trans hb.context)
  have hflag : d.context.ephemeralLineEnding = false := by rw [hctx]
  have hread := attributes_headRead he hl hs hn.held hflag
  have hreach := (Reaches.refl hs).attributes hl hn.held trivial
  have hends := restOfStartTag_ends code tags c.start.1 name start d
  generalize d.restOfStartTag code tags c.start.1 name start = w at h hends ⊢
  have hcontext {ps : List Piece} (hadds : Adds ps c.start.2 (d.behindHead code name start)) :
      (d.behindHead code name start).context = {} :=
    hadds.context.trans ((context_flush c _).trans hb.context)
  cases hends with
  | cutOff hat => exact (hn.cutOff hb hread hat).walk _
  | unclosed hopen =>
    rw [diagnostics_complete] at h
    exact absurd h (throughHead_reports hopen)
  | selfClosing hclosed hself =>
    obtain ⟨gt, inside, htag, hadds, hslash, -⟩ := hn.closed hread hreach.sound hclosed
    exact (hb.block hadds (allSettled_free htag.free)
      (htag.selfClosed (hslash.trans hself))).walk _
  | void hopens hvoid =>
    obtain ⟨gt, inside, htag, hadds, -⟩ := hn.closed hread hreach.sound hopens.closed
    rw [hcontext hadds] at hvoid
    obtain ⟨vs, hvs, hfree⟩ := grows_voidEndTag (d.behindHead code name start) name
    refine (hb.block (hadds.trans hvs)
      (allSettled_append.mpr ⟨allSettled_free htag.free, allSettled_free hfree⟩) ?_).walk _
    rw [List.cons_append, List.append_assoc, List.singleton_append]
    exact htag.void hvoid
  | script hopens _ hscript =>
    obtain ⟨gt, inside, htag, hadds, hslash, hsound⟩ :=
      hn.closed hread hreach.sound hopens.closed
    rw [hcontext hadds] at hscript
    rw [diagnostics_complete] at h
    exact (htag.scriptBody hb hadds (hslash.trans hopens.no_slash) hscript
      (scriptBody_silent he hl hsound (by rw [hcontext hadds]) hscript h)).walk _
  | opened hopens =>
    obtain ⟨gt, inside, htag, hadds, -⟩ := hn.closed hread hreach.sound hopens.closed
    exact (hb.push (t := ⟨name, start, some c.start.1⟩) hadds (allSettled_free htag.free) rfl
      htag.opens hplace).walk _

end TemplateMarkup.Cursor
