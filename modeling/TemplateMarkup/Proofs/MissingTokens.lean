import TemplateMarkup.Proofs.PlantedMarkup
import TemplateMarkup.Proofs.Pointing

/-! # Missing tokens and their reports

A token that the source left out is an empty leaf. `Tree.gaps` lists these leaves in the
order of the source, each with the node that holds it and the place of that node, and
`Gap.Reported` says that a diagnostic is about the tag which that node is. `Tallies` is
the state of a parse in which the gaps so far and the reports so far match one to one. -/

namespace TemplateMarkup

open TemplateMarkup.Tree

/-- An empty leaf: its kind, the node that it stands in, and the offset of that node. -/
structure Gap where
  kind : Kind
  block : Tree
  start : Nat

namespace Tree

/-- A leaf without text. -/
def isGap : Tree → Bool
  | token _ text => text.isEmpty
  | node .. => false

mutual

/-- The gaps in a node that begins at an offset. -/
def gapsFrom : Nat → Tree → List Gap
  | _, token .. => []
  | start, node kind children => gapsOf (node kind children) start start children

/-- The gaps in neighbours that begin at an offset, inside a node that begins at another. -/
def gapsOf (block : Tree) (blockStart : Nat) : Nat → List Tree → List Gap
  | _, [] => []
  | start, t :: ts =>
    (if t.isGap then [⟨t.kind, block, blockStart⟩] else t.gapsFrom start) ++
      gapsOf block blockStart (start + t.width) ts

end

/-- The gaps in a tree, in the order of the source. -/
def gaps (t : Tree) : List Gap := t.gapsFrom 0

variable {block t : Tree} {start blockStart : Nat} {ts us : List Tree} {place kind : Kind}

theorem isGap_of_isNode (h : t.isNode = true) : t.isGap = false := by
  cases t with
  | token => cases h
  | node => rfl

theorem eq_token_of_isGap (h : t.isGap = true) : t = .token t.kind [] := by
  cases t with
  | token kind text => rw [List.isEmpty_iff.mp h, Tree.kind]
  | node => cases h

mutual

/-- The gaps of a node are its empty leaves. -/
theorem map_gapsFrom : (t : Tree) → (start : Nat) → t.isGap = false →
    (t.gapsFrom start).map (fun g => .token g.kind []) = t.subtrees.filter isGap
  | token kind text, start, h => by simp [gapsFrom, subtrees, h]
  | node kind children, start, _ => by
    have hchildren := map_gapsOf children (node kind children) start start
    rw [gapsFrom, hchildren, subtrees, List.filter_cons_of_neg (by simp [isGap])]

theorem map_gapsOf : (ts : List Tree) → (block : Tree) → (blockStart start : Nat) →
    (gapsOf block blockStart start ts).map (fun g => .token g.kind []) =
      (subtreesOf ts).filter isGap
  | [], _, _, _ => rfl
  | t :: ts, block, blockStart, start => by
    have hrest := map_gapsOf ts block blockStart (start + t.width)
    rw [gapsOf, List.map_append, hrest, subtreesOf, List.filter_append]
    congr 1
    split
    · next hgap =>
      obtain ⟨kind, rfl⟩ : ∃ kind, t = .token kind [] := ⟨t.kind, eq_token_of_isGap hgap⟩
      rfl
    · next hgap => exact map_gapsFrom t start (by simpa using hgap)

end

/-- In a tree that begins at an offset, the gap's node is one of the nodes, holds the empty leaf, and
begins where the gap says. -/
structure HasGap (start : Nat) (t : Tree) (g : Gap) : Prop where
  block : g.block ∈ t.subtrees
  direct : .token g.kind [] ∈ g.block.children
  place : ∃ before after, t.text = before ++ (g.block.text ++ after) ∧
    g.start = start + Text.width before

mutual

theorem hasGap_of_mem : (t : Tree) → (start : Nat) → {g : Gap} → g ∈ t.gapsFrom start →
    t.HasGap start g
  | token .., _, _, hg => by cases hg
  | node kind children, start, g, hg => by
    rcases hasGap_of_mem_gapsOf children (node kind children) start start hg with
      ⟨hblock, hstart, hleaf⟩ | ⟨hblock, hdirect, before, after, htext, hstart⟩
    · refine ⟨?_, by rw [hblock]; exact hleaf, [], [], ?_, hstart⟩
      · rw [hblock, subtrees]
        exact List.mem_cons_self ..
      · rw [hblock, List.append_nil, List.nil_append]
    · exact ⟨List.mem_cons_of_mem _ hblock, hdirect, before, after, htext, hstart⟩

theorem hasGap_of_mem_gapsOf : (ts : List Tree) → (block : Tree) → (blockStart start : Nat) →
    {g : Gap} → g ∈ gapsOf block blockStart start ts →
    (g.block = block ∧ g.start = blockStart ∧ .token g.kind [] ∈ ts) ∨
      (g.block ∈ subtreesOf ts ∧ .token g.kind [] ∈ g.block.children ∧ ∃ before after,
        textOf ts = before ++ (g.block.text ++ after) ∧ g.start = start + Text.width before)
  | [], _, _, _, _, hg => by cases hg
  | t :: ts, block, blockStart, start, g, hg => by
    rw [gapsOf, List.mem_append] at hg
    rcases hg with hg | hg
    · split at hg
      · next hgap =>
        rw [List.mem_singleton.mp hg]
        refine .inl ⟨rfl, rfl, ?_⟩
        rw [← eq_token_of_isGap hgap]
        exact List.mem_cons_self ..
      · obtain ⟨hblock, hdirect, before, after, htext, hstart⟩ := hasGap_of_mem t start hg
        refine .inr ⟨List.mem_append_left _ hblock, hdirect, before, after ++ textOf ts, ?_, hstart⟩
        rw [textOf, htext]
        simp
    · rcases hasGap_of_mem_gapsOf ts block blockStart _ hg with
        ⟨hblock, hstart, hleaf⟩ | ⟨hblock, hdirect, before, after, htext, hstart⟩
      · exact .inl ⟨hblock, hstart, List.mem_cons_of_mem t hleaf⟩
      · refine .inr ⟨List.mem_append_right _ hblock, hdirect, t.text ++ before, after, ?_, ?_⟩
        · rw [textOf, htext, List.append_assoc]
        · rw [hstart, Text.width_append, width_eq, Nat.add_assoc]

end

theorem gapsOf_append (ts us : List Tree) : gapsOf block blockStart start (ts ++ us) =
    gapsOf block blockStart start ts ++ gapsOf block blockStart (start + widthOf ts) us := by
  induction ts generalizing start with
  | nil => simp [gapsOf, widthOf]
  | cons t ts ih => simp [gapsOf, widthOf, ih, Nat.add_assoc]

/-- The gaps below neighbouring nodes are in those nodes, whatever stands around them. -/
theorem gapsOf_of_nodes (h : ∀ t ∈ ts, t.isNode = true) (block' : Tree) (blockStart' : Nat) :
    gapsOf block blockStart start ts = gapsOf block' blockStart' start ts := by
  induction ts generalizing start with
  | nil => rfl
  | cons t ts ih =>
    obtain ⟨ht, hts⟩ := List.forall_mem_cons.mp h
    have hgap := isGap_of_isNode ht
    rw [gapsOf, gapsOf, hgap, ih hts]
    rfl

theorem gapsOf_eq_nil (h : ∀ t ∈ ts, t.isGap = false ∧ ∀ start, t.gapsFrom start = []) :
    gapsOf block blockStart start ts = [] := by
  induction ts generalizing start with
  | nil => rfl
  | cons t ts ih =>
    obtain ⟨⟨hgap, hnone⟩, hts⟩ := List.forall_mem_cons.mp h
    rw [gapsOf, hgap, ih hts]
    simp [hnone]

/-- A node that has no gap in it. -/
structure Whole (t : Tree) : Prop where
  isNode : t.isNode = true
  none : ∀ start, t.gapsFrom start = []

theorem gapsOf_of_whole (h : ∀ t ∈ ts, t.Whole) : gapsOf block blockStart start ts = [] :=
  gapsOf_eq_nil fun t ht => ⟨isGap_of_isNode (h t ht).isNode, (h t ht).none⟩

/-- A node of tokens that have a text. -/
theorem whole_leaves {tokens : List Token} (h : ∀ t ∈ tokens, t.text ≠ []) :
    Whole (.node kind (tokens.map ofToken)) := by
  refine ⟨rfl, fun start => ?_⟩
  refine gapsOf_eq_nil fun t ht => ?_
  obtain ⟨u, hu, rfl⟩ := List.mem_map.mp ht
  have htext := h u hu
  simp [ofToken, isGap, gapsFrom, htext]

theorem whole_flushTrees {pending : List Token} (h : ∀ t ∈ pending.reverse, t.text ≠ []) :
    ∀ t ∈ Cursor.flushTrees kind pending, t.Whole := by
  intro t ht
  unfold Cursor.flushTrees at ht
  split at ht
  · cases ht
  · rw [List.mem_singleton.mp ht]
    exact whole_leaves h

/-- Where no element may lie, no `>` can be missing. -/
theorem Placed.whole (h : Placed place t) (hbars : place.barsTags = true) : t.Whole := by
  induction h with
  | missing => cases hbars
  | leaves _ _ _ htext => exact whole_leaves htext
  | node hplace hkind hchildren _ ih =>
    have hinner := (Kind.barsTags_of_mayHold hbars hplace).2 hkind
    exact ⟨rfl, fun start => gapsOf_of_whole fun t ht => ih t ht hinner⟩

mutual

theorem flatten_leafTexts : (t : Tree) → t.leafTexts.flatten = t.text
  | token kind text => by
    rw [leafTexts]
    split
    · next h => rw [h, Tree.text, List.flatten_nil]
    · simp [Tree.text]
  | node kind children => by
    rw [leafTexts, Tree.text]
    exact flatten_leafTextsOf children

theorem flatten_leafTextsOf : (ts : List Tree) → (leafTextsOf ts).flatten = textOf ts
  | [] => rfl
  | t :: ts => by
    rw [leafTextsOf, List.flatten_append, flatten_leafTexts t, flatten_leafTextsOf ts, textOf]

end

end Tree

/-! ## Reports -/

/-- Whether the problem is a tag that is cut short. -/
def Problem.isUnfinished : Problem → Bool
  | unfinishedTag _ => true
  | _ => false

/-- A diagnostic about the tag that begins at an offset: it names that tag, and its range begins
where the name does. -/
def Diagnostic.AboutTag (source : List Char) (start : Nat) (d : Diagnostic) : Prop :=
  ∃ lead name written, (lead = ['<'] ∨ lead = ['<', '/']) ∧ NameAt source lead written start ∧
    d.problem = .unfinishedTag name ∧ Text.sameIgnoringCase written name = true ∧
    d.range.start = start + Text.width lead

/-- The gap is the `>` of a tag, and the diagnostic is about that tag. -/
structure Gap.Reported (source : List Char) (g : Gap) (d : Diagnostic) : Prop where
  kind : g.kind = .closeAngle
  block : g.block.kind = .tagBlock
  about : d.AboutTag source g.start

namespace Cursor

variable {σ : Type} {source : List Char} {c d e : Cursor σ} {f inner : List Tree}
  {fs frames : List (List Tree)} {reports : List Diagnostic} {problem : Problem} {range : Range}
  {kind : Kind}

/-- The reports of tags that are cut short. -/
def unfinished (c : Cursor σ) : List Diagnostic :=
  c.diagnostics.toList.filter (·.problem.isUnfinished)

theorem unfinished_congr (h : d.diagnostics = c.diagnostics) : d.unfinished = c.unfinished := by
  rw [unfinished, unfinished, h]

theorem unfinished_report (c : Cursor σ) (problem : Problem) (range : Range) :
    (c.report problem range).unfinished =
      c.unfinished ++ if problem.isUnfinished then [⟨problem, range⟩] else [] := by
  rw [unfinished, diagnostics_report, Array.toList_push, List.filter_append, unfinished]
  cases h : problem.isUnfinished <;> simp [h]

theorem unfinished_report_other (h : problem.isUnfinished = false) (c : Cursor σ) (range : Range) :
    (c.report problem range).unfinished = c.unfinished := by
  rw [unfinished_report, h]
  simp

/-! ## Open nodes and their gaps -/

/-- The width of what stands in open nodes. -/
def framesWidth : List (List Tree) → Nat
  | [] => 0
  | f :: fs => framesWidth fs + widthOf f

/-- The gaps in open nodes, of which the root is one. -/
def framesGaps : List (List Tree) → List Gap
  | [] => []
  | f :: fs => framesGaps fs ++ gapsOf (.node .root []) 0 (framesWidth fs) f

theorem framesGaps_append (f ts : List Tree) (fs : List (List Tree)) :
    framesGaps ((f ++ ts) :: fs) = framesGaps (f :: fs) ++
      gapsOf (.node .root []) 0 (framesWidth (f :: fs)) ts := by
  rw [framesGaps, framesGaps, gapsOf_append, List.append_assoc, framesWidth]

/-- A node that is closed keeps its gaps, and those among its children become gaps in it. -/
theorem framesGaps_node (kind : Kind) (f inner : List Tree) (fs : List (List Tree)) :
    framesGaps ((f ++ [.node kind inner]) :: fs) = framesGaps (f :: fs) ++
      gapsOf (.node kind inner) (framesWidth (f :: fs)) (framesWidth (f :: fs)) inner := by
  rw [framesGaps_append]
  simp [gapsOf, isGap, gapsFrom]

/-- Open nodes are as wide as the leaves in them. -/
theorem Shows.framesWidth_eq (h : Shows c frames) : framesWidth frames = Token.widthOf c.flushed := by
  have hframes (frames : List (List Tree)) :
      framesWidth frames = Text.width (framesTexts frames).flatten := by
    induction frames with
    | nil => rfl
    | cons f fs ih => simp [framesWidth, framesTexts, ih, widthOf_eq, flatten_leafTextsOf]
  have htokens : (c.flushed.reverse.map Token.text).flatten = Token.textOf c.flushed.reverse := by
    rw [Token.textOf, List.flatMap_def]
  rw [hframes, ← h.texts, htokens, ← Token.widthOf_eq, Token.widthOf_reverse]

/-- A node starts at the offset of the cursor, if nothing is held. -/
theorem Shows.offset (h : Shows c (f :: fs)) (hheld : c.held = []) :
    framesWidth ((f ++ flushTrees .literal c.pending) :: fs) = c.offset := by
  have hflush := (h.flush .literal).framesWidth_eq
  rw [hflush, flushed_flush, Token.widthOf_append]
  simp [Cursor.offset, nthStart, hheld, Token.widthOf]
  omega

/-! ## Gaps and reports in step -/

/-- The open nodes hold nodes, and their gaps are reported one by one. -/
structure Tallies (source : List Char) (reports : List Diagnostic) (c : Cursor σ)
    (frames : List (List Tree)) : Prop where
  shows : Shows c frames
  nodes : ∀ f ∈ frames, ∀ t ∈ f, t.isNode = true
  gaps : List.Forall₂ (Gap.Reported source) (framesGaps frames) reports

namespace Tallies

variable {m : Marker}

/-- Open nodes hold nodes as before when nodes are added to the innermost. -/
theorem nodes_append {ts : List Tree} (h : ∀ g ∈ f :: fs, ∀ t ∈ g, t.isNode = true)
    (hts : ∀ t ∈ ts, t.isNode = true) : ∀ g ∈ (f ++ ts) :: fs, ∀ t ∈ g, t.isNode = true := by
  obtain ⟨hf, hfs⟩ := List.forall_mem_cons.mp h
  exact List.forall_mem_cons.mpr ⟨List.forall_mem_append.mpr ⟨hf, hts⟩, hfs⟩

/-- Nodes without gaps are added. -/
theorem add (h : Tallies source reports c (f :: fs)) {ts : List Tree} (hwhole : ∀ t ∈ ts, t.Whole)
    (hshows : Shows d ((f ++ ts) :: fs)) : Tallies source reports d ((f ++ ts) :: fs) := by
  refine ⟨hshows, nodes_append h.nodes fun t ht => (hwhole t ht).isNode, ?_⟩
  rw [framesGaps_append, gapsOf_of_whole hwhole, List.append_nil]
  exact h.gaps

theorem flush (h : Tallies source reports c (f :: fs)) (kind : Kind) :
    Tallies source reports (c.flush kind) ((f ++ flushTrees kind c.pending) :: fs) :=
  h.add (whole_flushTrees h.shows.pending_sane) (h.shows.flush kind)

theorem moves (h : Tallies source reports c frames) (hmoves : Moves c d) :
    Tallies source reports d frames := ⟨hmoves.shows h.shows, h.nodes, h.gaps⟩

theorem report (h : Tallies source reports c frames) (problem : Problem) (range : Range) :
    Tallies source reports (c.report problem range) frames :=
  ⟨h.shows.report problem range, h.nodes, h.gaps⟩

theorem start (h : Tallies source reports c (f :: fs)) :
    Tallies source reports c.start.2 ([] :: (f ++ flushTrees .literal c.pending) :: fs) := by
  have hflush := h.flush .literal
  refine ⟨h.shows.start.1, List.forall_mem_cons.mpr ⟨nofun, hflush.nodes⟩, ?_⟩
  rw [framesGaps, gapsOf, List.append_nil]
  exact hflush.gaps

/-- The start of a node reports nothing. -/
theorem start_unfinished (h : Tallies source c.unfinished c (f :: fs)) :
    Tallies source c.start.2.unfinished c.start.2
      ([] :: (f ++ flushTrees .literal c.pending) :: fs) := by
  rw [unfinished_congr (diagnostics_start c)]
  exact h.start

/-- The gaps in the innermost node, when this is to be closed as the block. -/
theorem closing (h : Tallies source reports c (inner :: f :: fs)) (block : Tree) :
    List.Forall₂ (Gap.Reported source) (framesGaps (f :: fs) ++ gapsOf block (framesWidth (f :: fs))
      (framesWidth (f :: fs)) (inner ++ flushTrees .literal c.pending)) reports := by
  have hflush := h.flush .literal
  have hinner := (List.forall_mem_cons.mp hflush.nodes).1
  rw [gapsOf_of_nodes hinner (.node .root []) 0]
  exact hflush.gaps

/-- The gaps in the innermost node stay where they are when it is closed. -/
theorem complete (h : Tallies source reports c (inner :: f :: fs))
    (hm : m.index = (framesEvents (f :: fs)).length) (kind : Kind) :
    Tallies source reports (c.complete m kind)
      ((f ++ [.node kind (inner ++ flushTrees .literal c.pending)]) :: fs) := by
  have hrest := (List.forall_mem_cons.mp h.nodes).2
  refine ⟨h.shows.complete hm kind, nodes_append hrest (by simp [isNode]), ?_⟩
  rw [framesGaps_node]
  exact h.closing _

/-- A tag that is cut short is closed with a gap as its last child, and the report is about it. -/
theorem complete_unfinished (h : Tallies source reports c (inner :: f :: fs))
    (hm : m.index = (framesEvents (f :: fs)).length) {x : Diagnostic}
    (hx : x.AboutTag source (framesWidth (f :: fs))) :
    ∃ f', Tallies source (reports ++ [x]) ((c.missing .closeAngle).complete m .tagBlock)
      (f' :: fs) := by
  have hrest := (List.forall_mem_cons.mp h.nodes).2
  have hshows := ((Emits.missing c .closeAngle).shows h.shows).complete hm .tagBlock
  rw [(Emits.missing c .closeAngle).pending, flushTrees_nil, List.append_nil, ← List.append_assoc]
    at hshows
  refine ⟨_, hshows, nodes_append hrest (by simp [isNode]), ?_⟩
  rw [framesGaps_node, gapsOf_append, ← List.append_assoc]
  exact List.rel_append (h.closing _) (.cons ⟨rfl, rfl, hx⟩ .nil)

end Tallies

/-- Gaps and reports stay in step from one cursor to the other. -/
def Keeps (source : List Char) (c d : Cursor σ) : Prop :=
  ∀ ⦃f : List Tree⦄ ⦃fs : List (List Tree)⦄, Tallies source c.unfinished c (f :: fs) →
    ∃ f', Tallies source d.unfinished d (f' :: fs)

namespace Keeps

theorem refl (c : Cursor σ) : Keeps source c c := fun f _ h => ⟨f, h⟩

theorem trans (h : Keeps source c d) (h' : Keeps source d e) : Keeps source c e := by
  intro f fs ht
  obtain ⟨f', ht'⟩ := h ht
  exact h' ht'

theorem moves (h : Keeps source c d) (hmoves : Moves d e) : Keeps source c e := by
  intro f fs ht
  obtain ⟨f', ht'⟩ := h ht
  rw [← unfinished_congr hmoves.diagnostics] at ht'
  exact ⟨f', ht'.moves hmoves⟩

theorem flush (h : Keeps source c d) (kind : Kind) : Keeps source c (d.flush kind) := by
  intro f fs ht
  obtain ⟨f', ht'⟩ := h ht
  rw [← unfinished_congr (diagnostics_flush d kind)] at ht'
  exact ⟨_, ht'.flush kind⟩

/-- Another problem is reported. -/
theorem report (h : Keeps source c d) (hproblem : problem.isUnfinished = false) (range : Range) :
    Keeps source c (d.report problem range) := by
  intro f fs ht
  obtain ⟨f', ht'⟩ := h ht
  rw [← unfinished_report_other hproblem d range] at ht'
  exact ⟨f', ht'.report problem range⟩

/-- Trees are added where no element may lie, and nothing is reported. -/
theorem plants (h : Keeps source c d) (hplants : Plants .commentBlock d e)
    (hquiet : e.diagnostics = d.diagnostics) : Keeps source c e := by
  intro f fs ht
  obtain ⟨f', ht'⟩ := h ht
  obtain ⟨ts, hts, hplaced⟩ := hplants ht'.shows
  rw [← unfinished_congr hquiet] at ht'
  exact ⟨_, ht'.add (fun t ht => (hplaced t ht).whole rfl) hts⟩

/-- A stretch inside a node of its own. -/
theorem node (h : Keeps source c.start.2 d) (kind : Kind) :
    Keeps source c (d.complete c.start.1 kind) := by
  intro f fs ht
  obtain ⟨inner, hinner⟩ := h ht.start_unfinished
  rw [← unfinished_congr (diagnostics_complete d c.start.1 kind)] at hinner
  exact ⟨_, hinner.complete ht.shows.start.2 kind⟩

/-- A `>` that is there. -/
theorem closed (h : Keeps source c d) {name : List Char}
    (hclosed : (d.closeAngle name range).1 = true) : Keeps source c (d.closeAngle name range).2 := by
  unfold closeAngle at hclosed ⊢
  dsimp only at hclosed ⊢
  split
  · exact h.moves (.eat d _)
  · next heat =>
    rw [if_neg heat] at hclosed
    cases hclosed

/-- The end of a tag: either its `>` is there, or it is reported as missing. -/
theorem closeTag (h : Keeps source c.start.2 d) (hheld : c.held = []) {name : List Char}
    (habout : Diagnostic.AboutTag source c.offset ⟨.unfinishedTag name, range⟩) :
    Keeps source c ((d.closeAngle name range).2.complete c.start.1 .tagBlock) := by
  unfold closeAngle
  dsimp only
  split
  · exact (h.moves (.eat d _)).node .tagBlock
  · intro f fs ht
    obtain ⟨inner, hinner⟩ := (h.moves (.eat d .closeAngle)) ht.start_unfinished
    rw [← ht.shows.offset hheld] at habout
    have hreports : ((((d.eat .closeAngle).2.report (.unfinishedTag name) range).missing
        .closeAngle).complete c.start.1 .tagBlock).unfinished =
          (d.eat .closeAngle).2.unfinished ++ [⟨.unfinishedTag name, range⟩] := by
      rw [unfinished_congr (diagnostics_complete ..), unfinished_congr (diagnostics_missing ..),
        unfinished_report]
      rfl
    rw [hreports]
    exact (hinner.report (.unfinishedTag name) range).complete_unfinished ht.shows.start.2 habout

end Keeps

end Cursor

end TemplateMarkup
