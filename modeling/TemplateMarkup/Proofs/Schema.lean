import TemplateMarkup.Proofs.PlantedMarkup
import TemplateMarkup.Proofs.TagOutcomes

/-! # The schema of a tree

Between two tags the open nodes are those of the open tags, one inside the other,
and what comes next lands in the innermost. With this every part of the grammar
plants what it reads, so the tree of every parse with implicit code is schematic. -/

namespace TemplateMarkup

open TemplateMarkup.Tree

namespace Cursor

variable {σ : Type} {code : EmbeddedCode σ} {c d : Cursor σ} {place : Kind}

/-! ## The nodes of open tags -/

/-- A relation of the cursor to the open tags that is kept when something is reported, and when a tag
is closed. -/
structure KeepsTags (W : Cursor σ → OpenTags → Prop) : Prop where
  report {c : Cursor σ} {tags : OpenTags} (problem : Problem) (range : Range) :
    W c tags → W (c.report problem range) tags
  close {c : Cursor σ} {t : OpenTag} {tags : OpenTags} : W c (t :: tags) → W (t.close c) tags

namespace KeepsTags

variable {W : Cursor σ → OpenTags → Prop} {tags : OpenTags} {t : OpenTag}

theorem closeUnended (hW : KeepsTags W) (h : W c (t :: tags)) : W (t.closeUnended c) tags :=
  hW.close (hW.report _ _ h)

/-- The tag that is taken off is still open, and those in front of it are closed. -/
theorem removeMatching (hW : KeepsTags W) (h : W c tags) {name : List Char} {endTag : Nat}
    {t? : Option OpenTag} {rest : OpenTags}
    (hr : OpenTags.removeMatching name endTag tags c = (t?, rest, d)) : W d (t?.toList ++ rest) := by
  induction tags generalizing c with
  | nil =>
    cases hr
    exact hW.report _ _ h
  | cons t tags ih =>
    unfold OpenTags.removeMatching at hr
    split at hr
    · cases hr
      exact h
    · dsimp only at hr
      split at hr
      · next hlast =>
        cases hr
        have hclosed := hW.closeUnended h
        rwa [List.isEmpty_iff.mp hlast] at hclosed
      · exact ih (hW.closeUnended h) hr

theorem drain (hW : KeepsTags W) (h : W c tags) : W (tags.drain c).2 [] := by
  have hall {tags : OpenTags} {c : Cursor σ} (h : W c tags) :
      W (tags.foldl (fun c t => t.close c) c) [] := by
    induction tags generalizing c with
    | nil => exact h
    | cons t tags ih => exact ih (hW.close h)
  cases tags with
  | nil => exact h
  | cons t tags => exact hall (hW.closeUnended h)

end KeepsTags

/-- The trees of the open nodes: each open tag has one with what a tag may hold, down to that in which
the walk over the tags began. A tag of the text element has none, and is the only one then. -/
inductive Nests (f : List Tree) (fs : List (List Tree)) : OpenTags → List (List Tree) → Prop
  | none {ts : List Tree} : (∀ t ∈ ts, Placed .markupBlock t) → Nests f fs [] ((f ++ ts) :: fs)
  | text {t : OpenTag} {ts : List Tree} : t.block? = .none → (∀ u ∈ ts, Placed .markupBlock u) →
      Nests f fs [t] ((f ++ ts) :: fs)
  | node {t : OpenTag} {m : Marker} {tags : OpenTags} {ts : List Tree} {frames : List (List Tree)} :
      t.block? = some m → m.index = (framesEvents frames).length → (∀ u ∈ ts, Placed .tagBlock u) →
      Nests f fs tags frames → Nests f fs (t :: tags) (ts :: frames)

theorem Nests.exists_cons {f : List Tree} {fs frames : List (List Tree)} {tags : OpenTags}
    (h : Nests f fs tags frames) : ∃ g outer, frames = g :: outer := by
  cases h <;> exact ⟨_, _, rfl⟩

/-- Between two tags the open nodes are those of the open tags. -/
def Walking (f : List Tree) (fs : List (List Tree)) (c : Cursor σ) (tags : OpenTags) : Prop :=
  ∃ frames, Shows c frames ∧ Nests f fs tags frames

/-- The same of a state of the walk. -/
def WalkShows (f : List Tree) (fs : List (List Tree)) (w : TagWalk σ) : Prop :=
  Walking f fs w.cursor w.openTags

namespace Walking

variable {f : List Tree} {fs : List (List Tree)} {tags : OpenTags} {t : OpenTag} {w : TagWalk σ}

theorem start (hs : Shows c (f :: fs)) : Walking f fs c [] := by
  have hnone : Nests f fs [] ((f ++ []) :: fs) := .none fun _ ht => absurd ht List.not_mem_nil
  rw [List.append_nil] at hnone
  exact ⟨f :: fs, hs, hnone⟩

theorem walk (h : Walking f fs c tags) (complete : Bool) : WalkShows f fs ⟨c, tags, complete⟩ := h

theorem plants (h : Walking f fs c tags) (hplants : ∀ place : Kind, place.mayHold .tagBlock = true →
    Plants place c d) : Walking f fs d tags := by
  obtain ⟨frames, hs, hnests⟩ := h
  cases hnests with
  | none hts =>
    obtain ⟨us, hus, hplaced⟩ := hplants .markupBlock rfl hs
    rw [List.append_assoc] at hus
    exact ⟨_, hus, .none (List.forall_mem_append.mpr ⟨hts, hplaced⟩)⟩
  | text ht hts =>
    obtain ⟨us, hus, hplaced⟩ := hplants .markupBlock rfl hs
    rw [List.append_assoc] at hus
    exact ⟨_, hus, .text ht (List.forall_mem_append.mpr ⟨hts, hplaced⟩)⟩
  | node ht hm hts hrest =>
    obtain ⟨us, hus, hplaced⟩ := hplants .tagBlock rfl hs
    exact ⟨_, hus, .node ht hm (List.forall_mem_append.mpr ⟨hts, hplaced⟩) hrest⟩

/-- Outside every tag the unit itself is the innermost node. -/
theorem plants_outside (h : Walking f fs c []) (hplants : Plants .markupBlock c d) :
    Walking f fs d [] := by
  obtain ⟨frames, hs, hnests⟩ := h
  cases hnests with
  | none hts =>
    obtain ⟨us, hus, hplaced⟩ := hplants hs
    rw [List.append_assoc] at hus
    exact ⟨_, hus, .none (List.forall_mem_append.mpr ⟨hts, hplaced⟩)⟩

theorem scan (h : Walking f fs c tags) (hplants : ∀ place : Kind, place.holdsNodes = true →
    Plants place c d) : Walking f fs d tags :=
  h.plants fun place hplace => hplants place (Kind.holdsNodes_of_mayHold hplace)

/-- A text tag that opens. -/
theorem pushText (h : Walking f fs c []) (ht : t.block? = .none) : Walking f fs c [t] := by
  obtain ⟨frames, hs, hnests⟩ := h
  cases hnests with
  | none hts => exact ⟨_, hs, .text ht hts⟩

/-- A tag that opens with a node of its own. -/
theorem push (h : Walking f fs c tags) (hplants : Plants .tagBlock c.start.2 d)
    (ht : t.block? = some c.start.1) : Walking f fs d (t :: tags) := by
  have hflush : Walking f fs (c.flush .literal) tags :=
    h.scan fun place hplace => (Plants.refl c).flush_literal hplace
  obtain ⟨frames, hs, hnests⟩ := hflush
  obtain ⟨g, outer, rfl⟩ := hnests.exists_cons
  have hsame : (c.flush .literal).start = c.start := by
    rw [start_of_pending (pending_flush c _)]
    rfl
  obtain ⟨hstart, hindex⟩ := hs.start
  rw [hsame, pending_flush, flushTrees_nil, List.append_nil] at hstart hindex
  obtain ⟨ts, hts, hplaced⟩ := hplants hstart
  exact ⟨_, hts, .node ht hindex hplaced hnests⟩

/-- A tag that is closed. -/
theorem close (h : Walking f fs c (t :: tags)) : Walking f fs (t.close c) tags := by
  obtain ⟨frames, hs, hnests⟩ := h
  unfold OpenTag.close
  cases hnests with
  | text ht hts =>
    rw [ht]
    exact ⟨_, hs, .none hts⟩
  | @node t m tags ts frames ht hm hts hrest =>
    obtain ⟨g, outer, rfl⟩ := hrest.exists_cons
    rw [ht]
    have hfill : ∀ u ∈ ts ++ flushTrees .literal c.pending, Placed .tagBlock u :=
      List.forall_mem_append.mpr ⟨hts, placed_flushTrees rfl rfl hs.pending_sane⟩
    have hnone := countP_of_placed hfill (by decide)
    have hnode {place : Kind} (hplace : place.mayHold .tagBlock = true) :
        ∀ u ∈ [.node .tagBlock (ts ++ flushTrees .literal c.pending)], Placed place u := by
      intro u hu
      rw [List.mem_singleton.mp hu]
      exact .node hplace rfl hfill (by omega)
    refine ⟨_, hs.complete hm .tagBlock, ?_⟩
    cases hrest with
    | none hus =>
      rw [List.append_assoc]
      exact .none (List.forall_mem_append.mpr ⟨hus, hnode rfl⟩)
    | text hu hus =>
      rw [List.append_assoc]
      exact .text hu (List.forall_mem_append.mpr ⟨hus, hnode rfl⟩)
    | node hu hn hus hrest =>
      exact .node hu hn (List.forall_mem_append.mpr ⟨hus, hnode rfl⟩) hrest

theorem keepsTags : KeepsTags (@Walking σ f fs) where
  report problem range h := h.scan fun _ _ => (Plants.refl _).report problem range
  close h := h.close

/-! ### Tags -/

theorem restOfStartTag (h : Walking f fs c tags) (hc : code.Planting)
    (hplants : Plants .tagBlock c.start.2 d) (name : List Char) (start : Nat) :
    WalkShows f fs (d.restOfStartTag code tags c.start.1 name start) := by
  have hnode {e : Cursor σ} (he : Plants .tagBlock c.start.2 e) (complete : Bool) :
      WalkShows f fs ⟨e.complete c.start.1 .tagBlock, tags, complete⟩ :=
    (h.plants fun place hplace => he.node hplace rfl (by decide)).walk complete
  have hattributes := hplants.trans (plants_attributes hc d)
  have hclose : Plants .tagBlock c.start.2 (d.throughHead code name start).2 :=
    (hattributes.moves (.eat _ .slash)).closeAngle name _
  have hflush : Plants .tagBlock c.start.2 (d.behindHead code name start) := hclose.flush_literal rfl
  have hends := restOfStartTag_ends code tags c.start.1 name start d
  generalize d.restOfStartTag code tags c.start.1 name start = w at hends ⊢
  cases hends with
  | cutOff => exact hnode hattributes _
  | unclosed => exact hnode hclose _
  | selfClosing => exact hnode hflush _
  | void => exact hnode (hflush.voidEndTag name) _
  | script => exact hnode (hflush.scriptBody hc name) _
  | opened => exact (h.push hflush rfl).walk _

theorem textStartTag (h : Walking f fs c []) (name : List Char) :
    WalkShows f fs (c.textStartTag [] name) := by
  have hname : Plants .markupBlock c c.bump.eatName :=
    ((Plants.refl c).moves (.bump c)).moves (.eatName _)
  have hends := textStartTag_ends [] name c
  generalize c.textStartTag [] name = w at hends ⊢
  cases hends with
  | selfClosing _ hread =>
    exact (h.plants_outside ((hname.moves (.bumpN _ _)).textTag hread)).walk _
  | opened _ hread => exact ((h.plants_outside (hname.textTag hread)).pushText rfl).walk _

theorem startTag (h : Walking f fs c tags) (hc : code.Planting) :
    WalkShows f fs (c.startTag code tags) := by
  unfold Cursor.startTag
  dsimp only
  split
  · next htext =>
    obtain rfl : tags = [] := List.isEmpty_iff.mp htext.1
    exact h.textStartTag _
  · have hname : Plants .tagBlock c.start.2 c.start.2.bump.bangEscape.eatName :=
      (((Plants.refl _).moves (.bump _)).bangEscape rfl).moves (.eatName _)
    exact h.restOfStartTag hc hname _ _

theorem endTag (h : Walking f fs c tags) : WalkShows f fs (c.endTag tags) := by
  have hbare : Plants .tagBlock c.start.2 (c.start.2.bumpN 2) := (Plants.refl _).moves (.bumpN _ 2)
  have hblock {d : Cursor σ} {tags : OpenTags} (hd : Walking f fs d tags) :
      Walking f fs (d.endTagBlock (c.tagNameAt 2)).2 tags :=
    hd.plants fun place hplace => plants_endTagBlock hplace (c.tagNameAt 2) d
  have hends := endTag_ends tags c
  generalize c.endTag tags = w at hends ⊢
  cases hends with
  | bare => exact (h.plants fun place hplace => hbare.node hplace rfl (by decide)).walk _
  | unmatched _ hr => exact (hblock (keepsTags.removeMatching h hr)).walk _
  | text _ hr =>
    have hremoved := keepsTags.removeMatching h hr
    exact (hremoved.close.plants_outside (plants_textEndTag _ _)).walk _
  | element _ hr => exact (hblock (keepsTags.removeMatching h hr)).close.walk _

theorem loneAngle (h : Walking f fs c tags) : WalkShows f fs (c.loneAngle tags) := by
  have hbump : Plants .tagBlock c.start.2 c.start.2.bump := (Plants.refl _).moves (.bump _)
  refine h.plants fun place hplace => ?_
  unfold Cursor.loneAngle
  dsimp only
  split
  · exact (hbump.report _ _).node hplace rfl (by decide)
  · exact hbump.node hplace rfl (by decide)

theorem tag (h : Walking f fs c tags) (hc : code.Planting) : WalkShows f fs (c.tag code tags) := by
  unfold Cursor.tag
  split
  · exact h.loneAngle
  · split
    · exact (h.plants fun place hplace => plants_specialTag hc hplace c).walk _
    · split
      · exact h.endTag
      · exact h.startTag hc

theorem tagsFrom (hc : code.Planting) (bound : Nat) (h : WalkShows f fs w) :
    WalkShows f fs (Cursor.tagsFrom code bound w) := by
  induction bound generalizing w with
  | zero => exact (h.scan fun _ _ => .fail _ _).walk _
  | succ bound ih =>
    have hskip : Walking f fs ((w.cursor.skipTo code .openAngle).flush .literal) w.openTags :=
      h.scan fun place hplace => ((Plants.refl _).skipTo hc hplace _).flush_literal hplace
    unfold Cursor.tagsFrom
    dsimp only
    split
    · exact hskip.walk _
    · have htag := hskip.tag hc
      split
      · exact htag
      · exact ih htag

end Walking

/-! ## Units of markup -/

theorem plants_tagBlock (hc : code.Planting) (c : Cursor σ) :
    Plants .markupBlock c (c.tagBlock code) := by
  intro f fs hs
  have hwalk := Walking.tagsFrom hc (c.unclaimed + 1) ((Walking.start hs).walk false)
  have hdrained := Walking.keepsTags.drain hwalk
  have hend : Walking f fs (c.tagBlock code) [] := by
    unfold tagBlock endTags
    dsimp only
    generalize (tagsFrom code (c.unclaimed + 1) ⟨c, [], false⟩) = w at hdrained ⊢
    generalize (w.openTags.drain w.cursor).2 = d at hdrained ⊢
    refine hdrained.scan fun place hplace => Plants.flush_literal ?_ hplace
    have heat : Plants place d ((d.eat .whitespace).2.eat .newline).2 :=
      ((Plants.refl d).moves (.eat d _)).moves (.eat _ _)
    split <;> split <;> first | exact heat | exact .refl d
  obtain ⟨frames, hshows, hnests⟩ := hend
  cases hnests with
  | none hts => exact ⟨_, hshows, hts⟩

theorem plants_singleLine (hc : code.Planting) (hplace : place.holdsNodes = true) (c : Cursor σ) :
    Plants place c (c.singleLine code) := by
  unfold singleLine
  dsimp only
  have hinside : Plants place c { c with context.whitespaceSignificant := true } := .same rfl rfl rfl
  have hline := (hinside.skipTo hc hplace .newline).moves (.eat _ .newline)
  refine Plants.flush_literal ?_ hplace
  exact hline.trans (.same rfl rfl rfl)

theorem plants_blockContent (hc : code.Planting) (c : Cursor σ) :
    Plants .markupBlock c (c.blockContent code) := by
  have hafter (c : Cursor σ) : Plants .markupBlock c (c.afterTransition code) := by
    unfold afterTransition
    split
    · have hcolon : Plants .markupBlock c (c.bump.flush .metacode) :=
        ((Plants.refl c).moves (.bump c)).flush rfl rfl
      exact hcolon.trans (plants_singleLine hc rfl _)
    · exact plants_tagBlock hc c
    · exact .refl c
  have hdoubled (c : Cursor σ) : Plants .markupBlock c c.doubledTransition := by
    unfold doubledTransition
    dsimp only
    split
    · exact ((Plants.refl c).moves (.eat c _)).flush rfl rfl
    · exact (Plants.refl c).moves (.eat c _)
  unfold blockContent
  split
  · exact plants_tagBlock hc c
  · have htransition : Plants .markupBlock c ((c.flush .literal).bump.flush .markupTransition) :=
      (((Plants.refl c).flush_literal rfl).moves (.bump _)).flush rfl rfl
    exact (htransition.trans (hdoubled _)).trans (hafter _)
  · exact .refl c
  · exact (Plants.refl c).report _ _

theorem plants_looseTag (hc : code.Planting) (c : Cursor σ) :
    Plants .markupBlock c (c.looseTag code) := by
  have hopen : Plants .tagBlock c.start.2 ((c.start.2.bump.eat .slash).2.bangEscape.eatName) :=
    ((((Plants.refl _).moves (.bump _)).moves (.eat _ _)).bangEscape rfl).moves (.eatName _)
  unfold looseTag
  split
  · exact plants_specialTag hc rfl c
  · dsimp only
    split
    · refine Plants.node ?_ rfl rfl (by decide)
      exact (hopen.moves (.bumpWhile _ _)).moves (.eat _ _)
    · refine Plants.node ?_ rfl rfl (by decide)
      have hread := ((hopen.trans (plants_attributes hc _)).moves (.eat _ .slash)).moves
        (.eat _ .closeAngle)
      split
      · split
        · exact (hread.flush_literal rfl).scriptBody hc _
        · exact hread.flush_literal rfl
      · exact hread

theorem moves_nestingText (c : Cursor σ) (opener closer : List Char) (depth : Nat) :
    Moves c (c.nestingText opener closer depth).2 := by
  unfold nestingText
  split
  · exact (Moves.splitAfter c _).trans (.bump _)
  · split
    · exact .fail c _
    · split
      · dsimp only
        split
        · exact (Moves.splitAfter c _).trans (.bump _)
        · exact .refl c
      · exact (Moves.splitAfter c _).trans (.bump _)
  · exact .bump c

theorem plants_nestingFrom (hc : code.Planting) (opener closer : List Char) (bound depth : Nat)
    (c : Cursor σ) : Plants .markupBlock c (nestingFrom code opener closer bound depth c) := by
  induction bound generalizing depth c with
  | zero => exact .fail c _
  | succ bound ih =>
    have hskip : Plants .markupBlock c (c.skipUntil code fun c => c.at? .text || c.at? .openAngle) :=
      (Plants.refl c).skipUntil hc rfl _
    unfold nestingFrom
    dsimp only
    split
    · exact hskip
    · split
      · exact ((hskip.flush_literal rfl).trans (plants_looseTag hc _)).trans (ih _ _)
      · have htext := hskip.moves (moves_nestingText _ opener closer depth)
        split
        · exact htext
        · exact htext.trans (ih _ _)

/-! ## The tree of a parse -/

/-- A unit that is planted makes a schematic tree. -/
theorem schematic_run {body : Cursor σ → Cursor σ} {source : List Char} {context : Context} {host : σ}
    (hbody : ∀ c : Cursor σ, Plants .markupBlock c.start.2 (body c)) {p : Parse σ}
    (hok : ((ofSource source context host).run fun c =>
      (body c).complete c.start.1 .markupBlock).result = .ok p) : p.tree.Schematic := by
  have hstart := shows_root source context host
  unfold run at hok
  dsimp only at hok
  generalize (ofSource source context host).start.2 = c at hok hstart
  have hunit : Plants .root c ((body c).complete c.start.1 .markupBlock) :=
    (hbody c).node rfl rfl (by decide)
  generalize (body c).complete c.start.1 .markupBlock = d at hok hunit
  obtain ⟨ts, hts, hplaced⟩ := hunit hstart
  obtain ⟨htree, -⟩ := result_of_shows hts hok
  rw [htree, List.nil_append]
  have hliteral : ∀ t ∈ flushTrees .literal d.pending, Placed .root t :=
    placed_flushTrees rfl rfl hts.pending_sane
  have hunread : ∀ t ∈ flushTrees .unparsed (d.held.reverse ++ d.ahead).reverse, Placed .root t := by
    refine placed_flushTrees rfl rfl fun t ht => (hts.sane t ?_).text_ne_nil
    rw [List.reverse_reverse, List.mem_append] at ht
    simp only [tokens, List.mem_append]
    exact ht.imp .inr id
  have hfill := List.forall_mem_append.mpr ⟨List.forall_mem_append.mpr ⟨hplaced, hliteral⟩, hunread⟩
  have hnone := countP_of_placed hfill (by decide)
  exact schematic_of_filled (.nodes rfl hfill (by omega))

end Cursor

/-- Every parse with implicit code, of a unit or of a nested region, has a tree with the schema. -/
theorem Parser.parse_schematic {σ : Type} (options : Options) (host : σ) (nesting? : Option Nesting)
    (source : String) : ∃ p, Parser.parse ⟨some options, .implicit, host⟩ nesting? source = .ok p ∧
      p.tree.Schematic := by
  obtain ⟨p, hp, -⟩ := Parser.finish_covers (Cursor.lawful_implicit True fun _ => True) options host
    nesting? source trivial
  refine ⟨p, by rw [Parser.parse_eq, hp]; rfl, ?_⟩
  rw [finish_eq_run] at hp
  refine Cursor.schematic_run (fun c => ?_) hp
  cases nesting? with
  | none =>
    exact ((Cursor.Plants.refl _).moves (.bumpWhile _ _)).trans
      (Cursor.plants_blockContent Cursor.planting_implicit _)
  | some nesting =>
    exact (Cursor.plants_nestingFrom Cursor.planting_implicit _ _ _ _ _).flush_literal rfl

end TemplateMarkup
