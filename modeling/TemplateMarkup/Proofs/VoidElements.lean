import TemplateMarkup.Proofs.Silence
import TemplateMarkup.Proofs.VoidEndTags

/-! # Void elements never stay open

A void element has its end tag or none, but nothing in between. So no void tag is
ever open, none is reported as missing its end tag, and its block in the tree holds
no other. Unlike `Silence` this follows a parse through everything that it reports:
`Brings` is what a stretch adds when not even its diagnostics are known. -/

namespace TemplateMarkup

open Piece

/-! ## Blocks of void tags -/

/-- If the block is that of a void tag, no other stands in it. -/
def TagBlock.Barren (o : Options) (b : TagBlock) : Prop :=
  b.isElement → o.isVoidElement b.name = true → ∀ p ∈ b.pieces, p.Free

/-- Every tag block in the piece is barren. -/
def Piece.Barren (o : Options) (p : Piece) : Prop := ∀ after, ∀ b ∈ p.tagBlocks after, b.Barren o

/-- A missing end tag is not that of a void element. -/
def Problem.SparesVoids (o : Options) (problem : Problem) : Prop :=
  ∀ name, problem = .missingEndTag name → o.isVoidElement name = false

theorem Problem.SparesVoids.of_ne {o : Options} {problem : Problem}
    (h : ∀ name, problem ≠ .missingEndTag name) : problem.SparesVoids o :=
  fun name heq => absurd heq (h name)

variable {o : Options} {name : List Char} {ps qs : List Piece} {p : Piece} {kind : Kind}

namespace Piece

theorem mem_tagBlocksOf {after : List Char} {b : TagBlock} (h : b ∈ tagBlocksOf after ps) :
    ∃ p ∈ ps, ∃ after, b ∈ p.tagBlocks after := by
  induction ps with
  | nil => cases h
  | cons p ps ih =>
    rcases List.mem_append.mp h with h | h
    · exact ⟨p, List.mem_cons_self .., _, h⟩
    · obtain ⟨q, hq, hmem⟩ := ih h
      exact ⟨q, List.mem_cons_of_mem p hq, hmem⟩

theorem barren_free (h : p.Free) : p.Barren o := by
  intro after b hb
  rw [h after] at hb
  cases hb

theorem barren_part (hb : kind = .tagBlock → ∀ after, TagBlock.Barren o ⟨ps, after⟩)
    (hps : ∀ p ∈ ps, p.Barren o) : (part kind ps).Barren o := by
  intro after b hmem
  rcases List.mem_append.mp hmem with hmem | hmem
  · split at hmem
    · next hk =>
      rw [List.mem_singleton.mp hmem]
      exact hb hk after
    · cases hmem
  · obtain ⟨p, hp, after, hmem⟩ := mem_tagBlocksOf hmem
    exact hps p hp after b hmem

/-- A block without others. -/
theorem barren_of_free (hps : ∀ p ∈ ps, p.Free) : (part kind ps).Barren o :=
  barren_part (fun _ _ _ _ => hps) fun p hp => barren_free (hps p hp)

/-- The block of a tag that is not void. -/
theorem barren_of_opens (h : Opens name ps) (hname : o.isVoidElement name = false)
    (hps : ∀ p ∈ ps, p.Barren o) : (part kind ps).Barren o := by
  refine barren_part (fun _ after _ hvoid => ?_) hps
  obtain ⟨lt, head, gt, content, rfl, hhead, hgt, htag⟩ := h
  obtain ⟨heq, -⟩ := TagBlock.head_eq lt content after hhead hgt
  rw [TagBlock.name, heq, htag, hname] at hvoid
  cases hvoid

end Piece

namespace Cursor

variable {σ : Type} {code : EmbeddedCode σ} {c d e : Cursor σ} {P Q : Piece → Prop}
  {m n : Marker} {outer frames fs : List Frame} {tags : OpenTags} {t : OpenTag}
  {problem : Problem} {range : Range} {base : List Event} {ms : List Marker}

/-! ## What a stretch brings -/

theorem Views.report {m : Marker} {ps : List Piece} {outer : List Frame} (h : Views c m ps outer)
    (problem : Problem) (range : Range) : Views (c.report problem range) m ps outer := by
  obtain ⟨f, fs, hs, hm, hps, hout⟩ := h
  have hpending : (c.report problem range).pendingPieces = c.pendingPieces := by
    unfold Cursor.report
    dsimp only
    split <;> rfl
  exact ⟨f, fs, hs.report problem range, hm, by rw [hpending, hps], hout⟩

/-- Pieces of one sort come into the innermost node, and reports that spare the void elements. -/
structure Brings (o : Options) (P : Piece → Prop) (c d : Cursor σ) : Prop where
  context : d.context = c.context
  reports : ∀ x ∈ d.diagnostics.toList, x ∈ c.diagnostics.toList ∨ x.problem.SparesVoids o
  view : ∀ {m qs outer}, Views c m qs outer → ∃ ps, Views d m (qs ++ ps) outer ∧ ∀ p ∈ ps, P p

namespace Brings

theorem of_grows (h : Grows P c d) : Brings o P c d := by
  obtain ⟨ps, hps, hP⟩ := h
  exact ⟨hps.context, fun x hx => .inl (by rwa [hps.diagnostics] at hx),
    fun hv => ⟨ps, hps.view hv, hP⟩⟩

theorem trans (h : Brings o P c d) (h' : Brings o P d e) : Brings o P c e where
  context := h'.context.trans h.context
  reports x hx := (h'.reports x hx).elim (h.reports x) .inr
  view hv := by
    obtain ⟨ps, hps, hP⟩ := h.view hv
    obtain ⟨qs, hqs, hQ⟩ := h'.view hps
    rw [List.append_assoc] at hqs
    exact ⟨ps ++ qs, hqs, List.forall_mem_append.mpr ⟨hP, hQ⟩⟩

theorem mono (h : Brings o P c d) (hPQ : ∀ p, P p → Q p) : Brings o Q c d :=
  ⟨h.context, h.reports, fun hv => by
    obtain ⟨ps, hps, hP⟩ := h.view hv
    exact ⟨ps, hps, fun p hp => hPQ p (hP p hp)⟩⟩

theorem barren (h : Brings o Free c d) : Brings o (Barren o) c d := h.mono fun _ => barren_free

theorem report (h : problem.SparesVoids o) : Brings o P c (c.report problem range) where
  context := context_report c problem range
  reports x hx := by
    rw [diagnostics_report, Array.toList_push, List.mem_append, List.mem_singleton] at hx
    rcases hx with hx | rfl
    · exact .inl hx
    · exact .inr h
  view hv := by
    refine ⟨[], ?_, fun _ hp => absurd hp List.not_mem_nil⟩
    rw [List.append_nil]
    exact hv.report problem range

/-- A token that is missing. -/
theorem missing (hP : ∀ t, P (.leaf t)) (c : Cursor σ) (kind : Kind) :
    Brings o P c (c.missing kind) where
  context := context_missing c kind
  reports x hx := .inl (by rwa [diagnostics_missing] at hx)
  view hv := by
    obtain ⟨f, fs, hs, hm, hps, hout⟩ := hv
    refine ⟨[.leaf ⟨kind, []⟩], ⟨_, fs, (Emits.missing c kind).shows hs, hm, ?_, hout⟩, ?_⟩
    · simp [hps, (Emits.missing c kind).pending, pendingPieces, piecesOf_flushTrees, Tree.piecesOf,
        Tree.pieces]
    · simpa using hP _

/-- A stretch inside a node of its own. -/
theorem node (h : Brings o P c.start.2 d) (hk : kind ≠ .literal)
    (hQ : ∀ ps, (∀ p ∈ ps, P p) → Q (.part kind ps)) :
    Brings o Q c (d.complete c.start.1 kind) where
  context := (context_complete d _ _).trans (h.context.trans (context_start c))
  reports x hx := by
    rw [diagnostics_complete] at hx
    have hinside := h.reports x hx
    rwa [diagnostics_start] at hinside
  view hv := by
    obtain ⟨ps, hps, hP⟩ := h.view hv.start
    rw [List.nil_append] at hps
    exact ⟨_, hps.complete kind hk, by simpa using hQ ps hP⟩

theorem closeAngle (hP : ∀ t, P (.leaf t)) (c : Cursor σ) (name : List Char) (range : Range) :
    Brings o P c (c.closeAngle name range).2 := by
  have heat : Brings o P c (c.eat .closeAngle).2 := of_grows ((Accepts.eat c _).grows hP)
  unfold Cursor.closeAngle
  dsimp only
  split
  · exact heat
  · exact (heat.trans (report (.of_ne (by exact nofun)))).trans (missing hP _ _)

/-- A tag of the text element where no token was waiting. -/
theorem transition (hp : c.pending = []) (h : Collects c.bump d) :
    Brings o Free c (d.flush .markupTransition) where
  context := by rw [context_flush, h.context, context_bump]
  reports x hx := by
    rw [diagnostics_flush] at hx
    have hread := h.reports x hx
    rw [diagnostics_bump] at hread
    exact hread.imp_right fun hx => by rw [hx]; exact .of_ne nofun
  view hv := by
    obtain ⟨f, fs, hs, hm, hps, hout⟩ := hv
    have hread := h.shows ((Moves.bump c).shows hs)
    refine ⟨Tree.piecesOf (flushTrees .markupTransition d.pending),
      ⟨_, fs, hread.flush .markupTransition, hm, ?_, hout⟩, fun p hp => ?_⟩
    · simp [hps, hp, pendingPieces, pending_flush]
    · unfold flushTrees at hp
      split at hp
      · cases hp
      · rw [Tree.piecesOf, Tree.pieces, if_neg (by decide), Tree.piecesOf, List.append_nil,
          List.mem_singleton, Tree.piecesOf_map_ofToken] at hp
        rw [hp]
        exact free_part (by decide) (free_leaves _)

end Brings

/-! ## Tags -/

theorem grows_bangEscape (c : Cursor σ) : Grows Free c c.bangEscape := by
  have hbang : Grows Free (c.flush .literal) ((c.flush .literal).bump.flush .metacode) :=
    (Accepts.bump _).flush (pending_flush c _) (by decide)
      fun ts => free_part (by decide) (free_leaves ts)
  unfold bangEscape
  split
  · exact (Grows.refl c).flush_literal.trans hbang
  · exact .refl c

theorem brings_endTagBlock (name : List Char) (c : Cursor σ) :
    Brings o (Barren o) c (c.endTagBlock name).2 := by
  have hname : Grows Free c.start.2 (((c.start.2.bumpN 2).bangEscape.eatName).acceptUntil
      [.closeAngle, .openAngle]) :=
    (((Accepts.bumpN _ 2).grows free_leaf).trans (grows_bangEscape _)).trans
      (((Accepts.bumpWhile _ _).trans (.bumpWhile _ _)).grows free_leaf)
  unfold endTagBlock
  dsimp only
  exact ((Brings.of_grows hname).trans (.closeAngle free_leaf _ _ _)).node (by decide)
    fun ps hps => barren_of_free hps

theorem brings_scriptBody (he : code.Enclosing) (hflag : c.context.ephemeralLineEnding = false)
    (name : List Char) : Brings o (Barren o) c (c.scriptBody code name) := by
  have hbody (bound : Nat) {c : Cursor σ} (hflag : c.context.ephemeralLineEnding = false) :
      Brings o (Barren o) c (scriptBodyFrom code name bound c) := by
    induction bound generalizing c with
    | zero => exact .of_grows ((Accepts.fail c _).grows fun t => barren_free (free_leaf t))
    | succ bound ih =>
      have hskip := grows_skipTo he hflag .openAngle
      have hfirst : Brings o (Barren o) c (c.skipTo code .openAngle) := (Brings.of_grows hskip).barren
      have hflag' : (c.skipTo code .openAngle).context.ephemeralLineEnding = false := by
        rw [hskip.context, hflag]
      unfold scriptBodyFrom
      dsimp only
      generalize c.skipTo code .openAngle = d at hfirst hflag' ⊢
      split
      · exact hfirst
      · split
        · have hname : Grows Free d.start.2 (d.start.2.bumpN 2).eatName :=
            ((Accepts.bumpN _ 2).trans (.bumpWhile _ _)).grows free_leaf
          have hread := hname.trans (grows_skipTo he (by
            rw [hname.context, context_start, hflag']) .closeAngle)
          exact hfirst.trans (((Brings.of_grows hread).trans (.closeAngle free_leaf _ _ _)).node
            (by decide) fun ps hps => barren_of_free hps)
        · have hbump : Brings o (Barren o) d d.bump :=
            .of_grows ((Accepts.bump d).grows fun t => barren_free (free_leaf t))
          exact (hfirst.trans hbump).trans (ih (by rw [context_bump, hflag']))
  exact hbody _ hflag

theorem brings_textEndTag (hp : c.pending = []) (name : List Char) :
    Brings o Free c (c.textEndTag name) := by
  obtain ⟨d, hd, hread⟩ := textEndTag_cases c name
  rw [hread]
  exact .transition hp hd

/-! ## Open tags -/

/-- The open nodes of open tags, down to the one in which the walk began: each begins with its tag,
which is not void, and all that is finished in them is barren. A text tag has no node. -/
inductive Lasts (o : Options) (m : Marker) (outer : List Frame) : OpenTags → List Frame → Prop
  | none {ps : List Piece} : (∀ p ∈ ps, p.Barren o) → Lasts o m outer [] (⟨m, ps⟩ :: outer)
  | text {t : OpenTag} {tags : OpenTags} {frames : List Frame} : t.block? = .none →
      Lasts o m outer tags frames → Lasts o m outer (t :: tags) frames
  | node {t : OpenTag} {tags : OpenTags} {frames : List Frame} {n : Marker} {ps : List Piece} :
      t.block? = some n → Opens t.name ps → (∀ p ∈ ps, p.Barren o) → Lasts o m outer tags frames →
      Lasts o m outer (t :: tags) (⟨n, ps⟩ :: frames)

theorem Lasts.adds (h : Lasts o m outer tags (⟨n, ps⟩ :: fs)) (hqs : ∀ p ∈ qs, p.Barren o) :
    Lasts o m outer tags (⟨n, ps ++ qs⟩ :: fs) := by
  generalize hframes : ⟨n, ps⟩ :: fs = frames at h
  induction h with
  | none hps =>
    cases hframes
    exact .none (List.forall_mem_append.mpr ⟨hps, hqs⟩)
  | text ht _ ih => exact .text ht (ih hframes)
  | node ht hopens hps hrest =>
    cases hframes
    exact .node ht (hopens.append qs) (List.forall_mem_append.mpr ⟨hps, hqs⟩) hrest

theorem Lasts.exists_cons (h : Lasts o m outer tags frames) :
    ∃ n ps fs, frames = ⟨n, ps⟩ :: fs := by
  induction h with
  | none => exact ⟨_, _, _, rfl⟩
  | text _ _ ih => exact ih
  | node => exact ⟨_, _, _, rfl⟩

/-- Between two tags no open tag is void. -/
structure NoVoids (o : Options) (m : Marker) (outer : List Frame) (c : Cursor σ) (tags : OpenTags) :
    Prop where
  options : c.context.options = o
  flag : c.context.ephemeralLineEnding = false
  names : ∀ t ∈ tags, o.isVoidElement t.name = false
  frames : ∃ n ps fs, Views c n ps fs ∧ Lasts o m outer tags (⟨n, ps⟩ :: fs)

namespace NoVoids

theorem brings (h : NoVoids o m outer c tags) (hb : Brings o (Barren o) c d) :
    NoVoids o m outer d tags := by
  obtain ⟨n, ps, fs, hv, hlasts⟩ := h.frames
  obtain ⟨qs, hqs, hbarren⟩ := hb.view hv
  exact ⟨by rw [hb.context, h.options], by rw [hb.context, h.flag], h.names, n, _, fs, hqs,
    hlasts.adds hbarren⟩

theorem close (h : NoVoids o m outer c (t :: tags)) : NoVoids o m outer (t.close c) tags := by
  obtain ⟨hname, hnames⟩ := List.forall_mem_cons.mp h.names
  refine ⟨by rw [context_close, h.options], by rw [context_close, h.flag], hnames, ?_⟩
  obtain ⟨n, ps, fs, hv, hlasts⟩ := h.frames
  unfold OpenTag.close
  cases hlasts with
  | text ht hrest =>
    rw [ht]
    exact ⟨n, ps, fs, hv, hrest⟩
  | node ht hopens hps hrest =>
    obtain ⟨n', ps', fs', rfl⟩ := hrest.exists_cons
    rw [ht]
    have hblock : (Piece.part .tagBlock ps).Barren o := barren_of_opens hopens hname hps
    exact ⟨n', _, fs', hv.complete .tagBlock (by decide), hrest.adds (by simpa using hblock)⟩

theorem keepsTags : KeepsTags (@NoVoids σ o m outer) where
  report {c tags} problem range h := by
    obtain ⟨n, ps, fs, hv, hlasts⟩ := h.frames
    exact ⟨by rw [context_report, h.options], by rw [context_report, h.flag], h.names, n, ps, fs,
      hv.report problem range, hlasts⟩
  close h := h.close

end NoVoids

/-- What holds between two tags: no open tag is void, and no report has named one as open. -/
structure Sparing (o : Options) (m : Marker) (outer : List Frame) (c : Cursor σ) (tags : OpenTags) :
    Prop extends NoVoids o m outer c tags where
  reports : ∀ x ∈ c.diagnostics.toList, x.problem.SparesVoids o

/-- A finished block that begins with a tag which is not void. -/
theorem Brings.block (hadds : Adds ps c.start.2 d) (hopens : Opens name ps)
    (hname : o.isVoidElement name = false) (hps : ∀ p ∈ ps, p.Free)
    (h : Brings o (Barren o) d e) : Brings o (Barren o) c (e.complete c.start.1 .tagBlock) where
  context := by rw [context_complete, h.context, hadds.context, context_start]
  reports x hx := by
    rw [diagnostics_complete] at hx
    have hinside := h.reports x hx
    rwa [hadds.diagnostics, diagnostics_start] at hinside
  view hv := by
    obtain ⟨qs, hqs, hbarren⟩ := h.view (hadds.view hv.start)
    rw [List.nil_append] at hqs
    have hall : ∀ p ∈ ps ++ qs, p.Barren o :=
      List.forall_mem_append.mpr ⟨fun p hp => barren_free (hps p hp), hbarren⟩
    exact ⟨_, hqs.complete .tagBlock (by decide), by
      simpa using barren_of_opens (hopens.append qs) hname hall⟩

/-- What takes tags off names only open ones. -/
theorem spares_removeMatching (name : List Char) (endTag : Nat)
    (htags : ∀ t ∈ tags, o.isVoidElement t.name = false) (c : Cursor σ)
    (h : ∀ x ∈ c.diagnostics.toList, x.problem.SparesVoids o) :
    ∀ x ∈ (OpenTags.removeMatching name endTag tags c).2.2.diagnostics.toList,
      x.problem.SparesVoids o := by
  have hreport {c : Cursor σ} (h : ∀ x ∈ c.diagnostics.toList, x.problem.SparesVoids o)
      {problem : Problem} (hproblem : problem.SparesVoids o) (range : Range) :
      ∀ x ∈ (c.report problem range).diagnostics.toList, x.problem.SparesVoids o := by
    rw [diagnostics_report, Array.toList_push]
    exact List.forall_mem_append.mpr ⟨h, by simpa using hproblem⟩
  induction tags generalizing c with
  | nil => exact hreport h (.of_ne (by exact nofun)) _
  | cons t tags ih =>
    obtain ⟨ht, htags⟩ := List.forall_mem_cons.mp htags
    unfold OpenTags.removeMatching
    split
    · exact h
    · have hclosed : ∀ x ∈ (t.closeUnended c).diagnostics.toList, x.problem.SparesVoids o := by
        rw [OpenTag.closeUnended, diagnostics_close]
        refine hreport h ?_ _
        rintro other ⟨⟩
        exact ht
      dsimp only
      split
      · exact hclosed
      · exact ih htags _ hclosed

theorem spares_drain (htags : ∀ t ∈ tags, o.isVoidElement t.name = false) (c : Cursor σ)
    (h : ∀ x ∈ c.diagnostics.toList, x.problem.SparesVoids o) :
    ∀ x ∈ (tags.drain c).2.diagnostics.toList, x.problem.SparesVoids o := by
  cases tags with
  | nil => exact h
  | cons t tags =>
    have hdrain : (OpenTags.drain (t :: tags) c).2.diagnostics =
        c.diagnostics.push ⟨.missingEndTag t.name, t.nameRange⟩ :=
      ((diagnostics_foldl_close tags _).trans (diagnostics_close t _)).trans (diagnostics_report ..)
    rw [hdrain, Array.toList_push]
    refine List.forall_mem_append.mpr ⟨h, ?_⟩
    rw [List.forall_mem_singleton]
    rintro other ⟨⟩
    exact htags t (List.mem_cons_self ..)

namespace Sparing

theorem brings (h : Sparing o m outer c tags) (hb : Brings o (Barren o) c d) :
    Sparing o m outer d tags :=
  ⟨h.toNoVoids.brings hb, fun x hx => (hb.reports x hx).elim (h.reports x) id⟩

theorem close (h : Sparing o m outer c (t :: tags)) : Sparing o m outer (t.close c) tags :=
  ⟨h.toNoVoids.close, by rw [diagnostics_close]; exact h.reports⟩

theorem removeMatching (h : Sparing o m outer c tags) {endTag : Nat} {t? : Option OpenTag}
    {rest : OpenTags} (hr : OpenTags.removeMatching name endTag tags c = (t?, rest, d)) :
    Sparing o m outer d (t?.toList ++ rest) := by
  have hreports := spares_removeMatching name endTag h.names c h.reports
  rw [hr] at hreports
  exact ⟨NoVoids.keepsTags.removeMatching h.toNoVoids hr, hreports⟩

theorem drain (h : Sparing o m outer c tags) : Sparing o m outer (tags.drain c).2 [] :=
  ⟨NoVoids.keepsTags.drain h.toNoVoids, spares_drain h.names c h.reports⟩

theorem pushText (h : Sparing o m outer c tags) (ht : t.block? = none)
    (hname : o.isVoidElement t.name = false) : Sparing o m outer c (t :: tags) := by
  obtain ⟨n, ps, fs, hv, hlasts⟩ := h.frames
  exact ⟨⟨h.options, h.flag, List.forall_mem_cons.mpr ⟨hname, h.names⟩, n, ps, fs, hv,
    .text ht hlasts⟩, h.reports⟩

theorem push (h : Sparing o m outer c tags) (hadds : Adds ps c.start.2 d) (hps : ∀ p ∈ ps, p.Free)
    (ht : t.block? = some c.start.1) (hopens : Opens t.name ps)
    (hname : o.isVoidElement t.name = false) : Sparing o m outer d (t :: tags) := by
  obtain ⟨n, qs, fs, hv, hlasts⟩ := h.frames
  have hcontext : d.context = c.context := hadds.context.trans (context_start c)
  have hview := hadds.view hv.start
  rw [List.nil_append] at hview
  refine ⟨⟨by rw [hcontext, h.options], by rw [hcontext, h.flag],
    List.forall_mem_cons.mpr ⟨hname, h.names⟩, _, _, _, hview,
    .node ht hopens (fun p hp => barren_free (hps p hp)) hlasts⟩, ?_⟩
  rw [hadds.diagnostics, diagnostics_start]
  exact h.reports

/-- The state of a walk that is there. -/
theorem walk (h : Sparing o m outer c tags) (complete : Bool) :
    Sparing o m outer (TagWalk.mk c tags complete).cursor (TagWalk.mk c tags complete).openTags := h

/-! ### Tags -/

theorem restOfStartTag (he : code.Enclosing) (hl : code.Lawful False fun _ => True)
    (hb : Sparing o m outer c tags) {lt : Token} {head : List Piece}
    (hn : Named c name lt head d) (hs : Sound False base ms d) (start : Nat) :
    Sparing o m outer (d.restOfStartTag code tags c.start.1 name start).cursor
      (d.restOfStartTag code tags c.start.1 name start).openTags := by
  have hcontext : d.context = c.context := hn.adds.context.trans (context_start c)
  have hread := attributes_headRead he hl hs hn.held (by rw [hcontext, hb.flag])
  have hreach := (Reaches.refl hs).attributes hl hn.held trivial
  -- a tag that is complete, or cut off, and has no others in it
  have hnone {e : Cursor σ} (he : Brings o Free c.start.2 e) :
      Sparing o m outer (e.complete c.start.1 .tagBlock) tags :=
    hb.brings (he.node (by decide) fun _ => barren_of_free)
  have hends := restOfStartTag_ends code tags c.start.1 name start d
  generalize d.restOfStartTag code tags c.start.1 name start = w at hends ⊢
  cases hends with
  | cutOff =>
    obtain ⟨ps, hps, hinner, -⟩ := hread.pieces
    exact (hnone (.of_grows ⟨_, hn.adds.trans hps, hn.free hinner⟩)).walk _
  | unclosed =>
    obtain ⟨_, f, ps, heat, hps, hinner, -⟩ := hread.slash hreach.sound
    have hgrows : Brings o Free c.start.2 f := .of_grows ⟨_, hn.adds.trans hps, hn.free hinner⟩
    rw [throughHead, heat]
    exact (hnone (hgrows.trans (.closeAngle free_leaf _ _ _))).walk _
  | selfClosing hclosed =>
    obtain ⟨gt, inside, htag, hadds, -⟩ := hn.closed hread hreach.sound hclosed
    exact (hnone (.of_grows ⟨_, hadds, htag.free⟩)).walk _
  | void hopens =>
    obtain ⟨gt, inside, htag, hadds, -⟩ := hn.closed hread hreach.sound hopens.closed
    have hgrows : Brings o Free c.start.2 (d.behindHead code name start) :=
      .of_grows ⟨_, hadds, htag.free⟩
    exact (hnone (hgrows.trans (.of_grows (grows_voidEndTag _ name)))).walk _
  | script hopens hvoid =>
    obtain ⟨gt, inside, htag, hadds, -⟩ := hn.closed hread hreach.sound hopens.closed
    have hoptions := hadds.context.trans (context_start c)
    rw [hoptions, hb.options] at hvoid
    have hbody : Brings o (Barren o) (d.behindHead code name start)
        ((d.behindHead code name start).scriptBody code name) :=
      brings_scriptBody he (by rw [hoptions, hb.flag]) name
    exact (hb.brings (.block hadds htag.opens hvoid htag.free hbody)).walk _
  | opened hopens hvoid =>
    obtain ⟨gt, inside, htag, hadds, -⟩ := hn.closed hread hreach.sound hopens.closed
    rw [hadds.context.trans (context_start c), hb.options] at hvoid
    exact (hb.push (t := ⟨name, start, some c.start.1⟩) hadds htag.free rfl htag.opens hvoid).walk _

theorem startTag (he : code.Enclosing) (hl : code.Lawful False fun _ => True)
    (htext : o.isVoidElement o.textTagName.toList = false) (hb : Sparing o m outer c tags)
    (hh : c.held = []) (hp : c.pending = []) (hs : Sound False base ms c) (hne : c.ahead ≠ []) :
    Sparing o m outer (c.startTag code tags).cursor (c.startTag code tags).openTags := by
  obtain ⟨lt, rest, ha⟩ := List.exists_cons_of_ne_nil hne
  unfold Cursor.startTag
  dsimp only
  split
  · next hplace =>
    obtain ⟨d, hd, hread, hopen⟩ := textStartTag_cases c tags (c.tagNameAt 1)
    have hbrings := hb.brings (Brings.transition hp hd).barren
    rw [hread]
    rcases hopen with hopen | hopen
    · rw [hopen]
      exact hbrings
    · rw [hopen]
      refine hbrings.pushText rfl ?_
      have hname := hplace.2
      rw [hb.options, Options.isTextTag] at hname
      exact (o.isVoidElement_congr hname).trans htext
  · obtain ⟨head, hn⟩ := named hh ha
    exact hb.restOfStartTag he hl hn (Reaches.refl hs).start.bump.bangEscape.eatName.sound _

theorem endTag (hb : Sparing o m outer c tags) (hp : c.pending = []) :
    Sparing o m outer (c.endTag tags).cursor (c.endTag tags).openTags := by
  have hbare : Brings o Free c.start.2 (c.start.2.bumpN 2) :=
    .of_grows ((Accepts.bumpN _ 2).grows free_leaf)
  have hblock {t? : Option OpenTag} {rest : OpenTags} {d : Cursor σ}
      (hr : OpenTags.removeMatching (c.tagNameAt 2) c.offset tags c = (t?, rest, d)) :
      Sparing o m outer (d.endTagBlock (c.tagNameAt 2)).2 (t?.toList ++ rest) :=
    (hb.removeMatching hr).brings (brings_endTagBlock (c.tagNameAt 2) d)
  have hends := endTag_ends tags c
  generalize c.endTag tags = w at hends ⊢
  cases hends with
  | bare => exact (hb.brings (hbare.node (by decide) fun _ => barren_of_free)).walk _
  | unmatched _ hr => exact (hblock hr).walk _
  | @text t d _ hr =>
    have hpending : d.pending = [] := keepsTags_pending.removeMatching hp hr
    have hclosed := (hb.removeMatching hr).close
    exact (hclosed.brings (brings_textEndTag (pending_close t hpending) _).barren).walk _
  | element _ hr => exact (hblock hr).close.walk _

theorem loneAngle (hb : Sparing o m outer c tags) :
    Sparing o m outer (c.loneAngle tags).cursor tags := by
  have hbump : Brings o Free c.start.2 c.start.2.bump :=
    .of_grows ((Accepts.bump _).grows free_leaf)
  unfold Cursor.loneAngle
  dsimp only
  refine hb.brings (Brings.node ?_ (by decide) fun _ => barren_of_free)
  split
  · exact hbump.trans (.report (.of_ne (by exact nofun)))
  · exact hbump

/-- One tag. -/
theorem tag (he : code.Enclosing) (hl : code.Lawful False fun _ => True)
    (htext : o.isVoidElement o.textTagName.toList = false) (hb : Sparing o m outer c tags)
    (hh : c.held = []) (hp : c.pending = []) (hs : Sound False base ms c) (hne : c.ahead ≠ []) :
    Sparing o m outer (c.tag code tags).cursor (c.tag code tags).openTags := by
  unfold Cursor.tag
  split
  · exact hb.loneAngle
  · split
    · exact hb.brings (Brings.of_grows (grows_specialTag he hb.flag)).barren
    · split
      · exact hb.endTag hp
      · exact hb.startTag he hl htext hh hp hs hne

/-- The text in front of a tag. -/
theorem next (he : code.Enclosing) {w : TagWalk σ} (hb : Sparing o m outer w.cursor w.openTags) :
    Sparing o m outer (w.next code) w.openTags :=
  hb.brings (Brings.of_grows (grows_skipTo he hb.flag .openAngle).flush_literal).barren

/-- Every state of a walk. -/
theorem visits (he : code.Enclosing) (hl : code.Lawful False fun _ => True)
    (htext : o.isVoidElement o.textTagName.toList = false) {w v : TagWalk σ}
    (hb : Sparing o m outer w.cursor w.openTags)
    (hs : Sound False base (w.openTags.markers ++ ms) w.cursor) (hv : TagWalk.Visits code w v) :
    Sparing o m outer v.cursor v.openTags ∧
      Sound False base (v.openTags.markers ++ ms) v.cursor := by
  induction hv with
  | start => exact ⟨hb, hs⟩
  | @step v _ _ hend ih =>
    obtain ⟨hb, hs⟩ := ih
    have hne : (v.next code).ahead ≠ [] := by simpa [atEnd] using hend
    have hread := ((Reaches.refl hs).skipTo hl.toStepwise .openAngle trivial).flush .literal
    refine ⟨(hb.next he).tag he hl htext ((held_flush _ _).trans (held_skipTo hl hs _))
      (pending_flush _ _) hread.sound hne, ?_⟩
    exact ((Reaches.refl hread.sound).tag hl False.elim trivial hne).sound

theorem tagBlock (he : code.Enclosing) (hl : code.Lawful False fun _ => True)
    (htext : o.isVoidElement o.textTagName.toList = false) (hb : Sparing o m outer c [])
    (hs : Sound False base ms c) : Sparing o m outer (c.tagBlock code) [] := by
  obtain ⟨v, hv, hend⟩ := TagWalk.visits_tagsFrom code (c.unclaimed + 1) ⟨c, [], false⟩
  have hwalk : Sparing o m outer v.cursor v.openTags := (hb.visits he hl htext hs hv).1
  have hfail : Brings o (Barren o) v.cursor (v.cursor.fail .stalled) :=
    .of_grows ((Accepts.fail _ _).grows fun t => barren_free (free_leaf t))
  unfold Cursor.tagBlock
  generalize Cursor.tagsFrom code (c.unclaimed + 1) ⟨c, [], false⟩ = w at hend ⊢
  have hw : Sparing o m outer w.cursor w.openTags := by
    rcases hend with rfl | rfl | rfl
    · exact hwalk
    · exact hwalk.next he
    · exact hwalk.brings hfail
  exact hw.drain.brings (Brings.of_grows (endTags_eq_drain w)).barren

/-! ### Units of markup -/

theorem afterTransition (he : code.Enclosing) (hl : code.Lawful False fun _ => True)
    (htext : o.isVoidElement o.textTagName.toList = false) (hb : Sparing o m outer c [])
    (hp : c.pending = []) (hs : Sound False base ms c) :
    Sparing o m outer (c.afterTransition code) [] := by
  unfold Cursor.afterTransition
  split
  · have hcolon : Grows Free c (c.bump.flush .metacode) :=
      (Accepts.bump c).flush hp (by decide) fun ts => free_part (by decide) (free_leaves ts)
    have hline := grows_singleLine he (c := c.bump.flush .metacode) (by rw [hcolon.context, hb.flag])
    exact hb.brings (Brings.of_grows (hcolon.trans hline)).barren
  · exact hb.tagBlock he hl htext hs
  · exact hb

theorem blockContent (he : code.Enclosing) (hl : code.Lawful False fun _ => True)
    (htext : o.isVoidElement o.textTagName.toList = false) (hb : Sparing o m outer c [])
    (hs : Sound False base ms c) : Sparing o m outer (c.blockContent code) [] := by
  unfold Cursor.blockContent
  split
  · exact hb.tagBlock he hl htext hs
  · have hfirst : Grows Free (c.flush .literal) ((c.flush .literal).bump.flush .markupTransition) :=
      (Accepts.bump _).transition (pending_flush c _)
    have hreach := (((Reaches.refl hs).flush .literal).bump.flush .markupTransition).doubledTransition
    obtain ⟨hdoubled, hp⟩ := grows_doubledTransition
      (pending_flush (c.flush .literal).bump .markupTransition)
    have hgrows := ((Grows.refl c).flush_literal.trans hfirst).trans hdoubled
    exact (hb.brings (Brings.of_grows hgrows).barren).afterTransition he hl htext hp hreach.sound
  · exact hb
  · exact hb.brings (.report (.of_ne (by exact nofun)))

end Sparing

end Cursor

namespace Parse

open Cursor

variable {σ : Type} {options : Options}

theorem sparing_blockEnd (htext : options.isVoidElement options.textTagName.toList = false) (host : σ)
    (source : String) : Sparing options ⟨1⟩ [⟨⟨0⟩, []⟩] (blockEnd options .implicit host source) [] := by
  have hstart : Sparing options ⟨1⟩ [⟨⟨0⟩, []⟩] (blockStart options host source) [] :=
    ⟨⟨rfl, rfl, nofun, ⟨1⟩, [], _, views_blockStart options host source, .none nofun⟩, nofun⟩
  have hsound := sound_ofSource False source.toList { options } host
  have hreach := (Reaches.refl hsound).bumpWhile (·.kind.isTrivia)
  have hblanks : Brings options Free (blockStart options host source)
      ((blockStart options host source).bumpWhile (·.kind.isTrivia)) :=
    .of_grows ((Accepts.bumpWhile _ _).grows free_leaf)
  exact (hstart.brings hblanks.barren).blockContent enclosing_implicit (lawful_implicit False _) htext
    hreach.sound

/-- In the tree of any parse the block of a void tag holds no other, and no void element is reported
as missing its end tag. -/
theorem parseBlock_sparing (htext : options.isVoidElement options.textTagName.toList = false)
    (host : σ) (source : String) : ∃ p, parseBlock options .implicit host source = .ok p ∧
      (∀ x ∈ p.diagnostics, x.problem.SparesVoids options) ∧ ∀ b ∈ p.tagBlocks, b.Barren options := by
  have hend := sparing_blockEnd htext host source
  obtain ⟨n, ps, fs, hview, hlasts⟩ := hend.frames
  cases hlasts with
  | none hps =>
    obtain ⟨p, block, rest, hp, -, hdiagnostics, htree, hblock, -⟩ :=
      parseBlock_of_views (lawful_implicit True fun _ => True) hview
    refine ⟨p, hp, by rw [hdiagnostics]; exact hend.reports, fun b hb => ?_⟩
    have hchild : p.tree.child? .markupBlock = some (.node .markupBlock block) := by
      rw [htree]
      rfl
    have hunit : (part .markupBlock ps).Barren options := barren_part (fun hk => by cases hk) hps
    obtain ⟨q, hq, after, hmem⟩ := mem_tagBlocksOf hb
    simp only [hchild, Option.elim_some, Tree.pieces, reduceCtorEq, if_false, hblock,
      List.mem_singleton] at hq
    rw [hq] at hmem
    exact hunit after b hmem

/-- Void elements never stay open: no state of a walk has one among its open tags, no parse reports
one as missing its end tag, and no block of one holds another tag block. Behind the `>` of a void tag
an end tag of its name is taken along, spacing apart, and nothing else. -/
theorem voidElements_close (htext : options.isVoidElement options.textTagName.toList = false)
    (hplain : options.PlainVoids) :
    (∀ (c : Cursor σ) (v : TagWalk σ), c.context.options = options →
      TagWalk.Visits .implicit ⟨c, [], false⟩ v →
        ∀ t ∈ v.openTags, options.isVoidElement t.name = false) ∧
    (∀ (host : σ) (source : String), ∃ p, parseBlock options .implicit host source = .ok p ∧
      (∀ x ∈ p.diagnostics, ∀ name, x.problem = .missingEndTag name →
        options.isVoidElement name = false) ∧
      ∀ b ∈ p.tagBlocks, b.isElement → options.isVoidElement b.name = true →
        tagBlocksOf b.after b.pieces = []) ∧
    ∀ (c : Cursor σ) (tags : OpenTags) (gt : Token) (rest : List Token),
      c.context.options = options → c.AtStartTag →
      options.isVoidElement (c.tagNameAt 1) = true →
      (c.behindAttributes .implicit).ahead = gt :: rest → gt.kind = .closeAngle →
      let d := (c.behindAttributes .implicit).bump.flush .literal
      let e := d.voidEndTag (c.tagNameAt 1)
      d.ahead = rest ∧ c.tag .implicit tags = ⟨e.complete c.start.1 .tagBlock, tags, true⟩ ∧
        (∀ used left, rest = used ++ left → TakesAlong (c.tagNameAt 1) used left →
          Takes used (used.map .leaf) d e ∧ e.ahead = left) ∧
        ((∀ used left, rest = used ++ left → ¬ TakesAlong (c.tagNameAt 1) used left) → e = d) := by
  refine ⟨fun c v hc hv => ?_, fun host source => ?_, fun c tags gt rest hc hstart hvoid ha hgt => ?_⟩
  · refine hv.openTags keepsOptions_implicit
      (P := fun tags => ∀ t ∈ tags, options.isVoidElement t.name = false) ?_ nofun
    intro d tags rest hd hstep htags
    rw [hc] at hd
    cases hstep with
    | same => exact htags
    | ended hr =>
      have hmem : ∀ t ∈ (OpenTags.removeMatching (d.tagNameAt 2) d.offset tags d).2.1, t ∈ tags :=
        fun t => mem_removeMatching
      rw [hr] at hmem
      exact fun t ht => htags t (hmem t ht)
    | text _ _ hname =>
      rw [hd, Options.isTextTag] at hname
      simpa using (options.isVoidElement_congr hname).trans htext
    | opened _ _ hname =>
      rw [hd] at hname
      exact List.forall_mem_cons.mpr ⟨hname, htags⟩
  · obtain ⟨p, hp, hreports, hblocks⟩ := parseBlock_sparing htext host source
    exact ⟨p, hp, hreports, fun b hb helement hvoid =>
      tagBlocksOf_free (hblocks b hb helement hvoid) _⟩
  · intro d e
    have hd : d.ahead = rest := by rw [ahead_flush, ahead_bump, ha, List.tail_cons]
    have hheld : d.held = [] := (held_flush _ _).trans (held_bump ha)
    have hname : Plain (c.tagNameAt 1) := hplain.plain hvoid
    have hnone : options.isTextTag (c.tagNameAt 1) = false := by
      rw [Bool.eq_false_iff]
      intro htag
      rw [options.isVoidElement_congr htag, htext] at hvoid
      cases hvoid
    refine ⟨hd, ?_, ?_, fun hnot => ?_⟩
    · exact tag_void keepsOptions_implicit tags hstart (by rw [hc, hnone]) (by rw [hc, hvoid]) ha hgt
    · rintro used left rfl ⟨gap, lt, slash, ns, body, close, hend, rfl⟩
      have htakes := voidEndTag_takes hname hheld hend (by rw [hd]; simp)
      exact ⟨htakes, htakes.ahead_eq hd⟩
    · exact voidEndTag_stays hname fun used left hused => hnot used left (hd.symm.trans hused)

/-- `<br>` in a paragraph. It does not stay open, its block holds no other, and it takes an end tag
with an attribute along. -/
theorem voidElements_close_br :
    let c (source : String) : Cursor Unit :=
      { ahead := Token.lex source.toList, context := {}, host := () }
    let options : Options := {}
    options.isVoidElement options.textTagName.toList = false ∧ options.PlainVoids ∧
    (∃ v, TagWalk.Visits .implicit ⟨c "<p><br>", [], false⟩ v ∧
      v.openTags.map (·.name) = ["p".toList] ∧
      ∀ t ∈ v.openTags, options.isVoidElement t.name = false) ∧
    (∃ p, parse "<p><br></br><i></p>" = .ok p ∧
      p.diagnostics.map (·.problem) = [.missingEndTag "i".toList] ∧
      (∀ x ∈ p.diagnostics, ∀ name, x.problem = .missingEndTag name →
        options.isVoidElement name = false) ∧
      ∃ b ∈ p.tagBlocks, b.isElement ∧ options.isVoidElement b.name = true ∧
        tagBlocksOf b.after b.pieces = []) ∧
    ∃ e, (c "<br> </BR x>y").tag .implicit [] = ⟨e, [], true⟩ ∧ e.ahead = Token.lex "y".toList := by
  intro c options
  have htext : options.isVoidElement options.textTagName.toList = false := by decide
  have hplain : options.PlainVoids := by decide
  obtain ⟨hwalk, hparse, hend⟩ := voidElements_close (σ := Unit) htext hplain
  refine ⟨htext, hplain, ?_, ?_, ?_⟩
  · have hone : TagWalk.Visits .implicit ⟨c "<p><br>", [], false⟩
        (TagWalk.step .implicit ⟨c "<p><br>", [], false⟩) := .step .start (.inl rfl) (by decide +kernel)
    have htwo := hone.step (.inr (by decide +kernel)) (by decide +kernel)
    exact ⟨_, htwo, by decide +kernel, hwalk _ _ rfl htwo⟩
  · obtain ⟨p, hp, hreports, hblocks⟩ := hparse () "<p><br></br><i></p>"
    obtain ⟨q, hq, hcheck⟩ : ∃ q, parse "<p><br></br><i></p>" = .ok q ∧
        (decide (q.diagnostics.map (·.problem) = [.missingEndTag "i".toList]) &&
          q.tagBlocks.any fun b => b.isElement && options.isVoidElement b.name) = true :=
      exists_of_check (by decide +kernel)
    obtain rfl : p = q := Except.ok.inj (hp.symm.trans hq)
    simp only [Bool.and_eq_true, decide_eq_true_eq, List.any_eq_true] at hcheck
    obtain ⟨hproblems, b, hb, helement, hvoid⟩ := hcheck
    exact ⟨p, hp, hproblems, hreports, b, hb, helement, hvoid, hblocks b hb helement hvoid⟩
  · have hstart : (c "<br> </BR x>y").AtStartTag :=
      ⟨by decide +kernel, by decide +kernel, by decide +kernel⟩
    have hlex : Token.lex " </BR x>y".toList = [⟨.whitespace, [' ']⟩] ++ ⟨.openAngle, ['<']⟩ ::
        ⟨.slash, ['/']⟩ :: ([⟨.text, ['B', 'R']⟩] ++ ([⟨.whitespace, [' ']⟩, ⟨.text, ['x']⟩] ++
          [⟨.closeAngle, ['>']⟩])) ++ Token.lex "y".toList := by decide +kernel
    have hused : TakesAlong "br".toList ([⟨.whitespace, [' ']⟩] ++ ⟨.openAngle, ['<']⟩ ::
        ⟨.slash, ['/']⟩ :: ([⟨.text, ['B', 'R']⟩] ++ ([⟨.whitespace, [' ']⟩, ⟨.text, ['x']⟩] ++
          [⟨.closeAngle, ['>']⟩]))) (Token.lex "y".toList) :=
      ⟨_, _, _, _, _, _, ⟨by decide, rfl, rfl, by decide, by decide, by decide, by decide,
        .inl ⟨_, rfl, rfl⟩⟩, rfl⟩
    have hname : (c "<br> </BR x>y").tagNameAt 1 = "br".toList := by decide +kernel
    obtain ⟨-, htag, htakes, -⟩ := hend (c "<br> </BR x>y") [] ⟨.closeAngle, ['>']⟩
      (Token.lex " </BR x>y".toList) rfl hstart (by decide +kernel) (by decide +kernel) rfl
    rw [hname] at htag htakes
    refine ⟨_, htag, ?_⟩
    rw [ahead_complete]
    exact (htakes _ _ hlex hused).2

end Parse

end TemplateMarkup
