import TemplateMarkup.Markup.OpenTags
import TemplateMarkup.Proofs.Growth

/-! # Open tags and the nodes that wait with them

Between two tags of a unit each open tag has a node that waits for its end, and
this node begins with the tag. `Between` says so, and that no finished tag block
is malformed in an unknown way. It survives whatever adds settled pieces, a tag
that opens and one that closes. -/

namespace TemplateMarkup

open Piece

/-- The pieces begin with a tag of the name that has its `>`. -/
def Opens (name : List Char) (ps : List Piece) : Prop :=
  ∃ lt head gt content, ps = lt :: (head ++ gt :: content) ∧ (∀ p ∈ head, p.isAngle = false) ∧
    gt.isToken .closeAngle = true ∧ tagName head = name

/-- Every finished tag block in open nodes is settled; the text comes after the innermost one. -/
def SettledFrames (after : List Char) : List Frame → Prop
  | [] => True
  | f :: fs => AllSettled after f.pieces ∧ SettledFrames (textOf f.pieces ++ after) fs

/-- The open tags and the open nodes, down to the one in which the walk over the tags began. -/
inductive Waiting (m : Marker) (outer : List Frame) : OpenTags → List Frame → Prop
  | none (ps : List Piece) : Waiting m outer [] (⟨m, ps⟩ :: outer)
  /-- A text tag has no node. -/
  | text {t : OpenTag} (ps : List Piece) : t.block? = none → Waiting m outer [t] (⟨m, ps⟩ :: outer)
  | node {t : OpenTag} {tags : OpenTags} {frames : List Frame} {n : Marker} {ps : List Piece} :
      t.block? = some n → Opens t.name ps →
      (tags = [] → ({} : Options).isTextTag t.name = false) → Waiting m outer tags frames →
      Waiting m outer (t :: tags) (⟨n, ps⟩ :: frames)

variable {m n : Marker} {outer frames fs : List Frame} {tags : OpenTags} {t : OpenTag}
  {ps qs inner : List Piece} {name after : List Char}

theorem Opens.append (h : Opens name ps) (qs : List Piece) : Opens name (ps ++ qs) := by
  obtain ⟨lt, head, gt, content, rfl, hhead, hgt, hname⟩ := h
  exact ⟨lt, head, gt, content ++ qs, by simp, hhead, hgt, hname⟩

/-- An end tag is no element. -/
theorem settled_of_isEndTag (h : isEndTag name ps = true) : TagBlock.Settled ⟨ps, after⟩ := by
  intro helement
  match ps, h with
  | lt :: slash :: ps, h =>
    simp only [isEndTag, Bool.and_eq_true] at h
    simp [TagBlock.isElement, h.1.1.2] at helement

/-- A tag that has its end tag in its block is well formed. -/
theorem Opens.settled (h : Opens name ps) (hend : isEndTag name inner = true) :
    TagBlock.Settled ⟨ps ++ [.part .tagBlock inner], after⟩ := by
  obtain ⟨lt, head, gt, content, rfl, hhead, hgt, hname⟩ := h
  intro _
  have hshape : lt :: (head ++ gt :: content) ++ [.part .tagBlock inner] =
      lt :: (head ++ gt :: (content ++ [.part .tagBlock inner])) := by simp
  obtain ⟨heq, hclosed⟩ :=
    TagBlock.head_eq lt (content ++ [.part .tagBlock inner]) after hhead hgt
  rw [hshape]
  refine .inl ⟨hclosed, .inr (.inr ?_)⟩
  have hlast : (innerTags (lt :: (head ++ gt :: (content ++ [.part .tagBlock inner])))).getLast? =
      some inner := by
    rw [← hshape, innerTags_append, List.getLast?_append]
    rfl
  simp only [TagBlock.ended, TagBlock.name, heq, hname, hlast]
  exact hend

theorem SettledFrames.adds (h : SettledFrames (textOf qs ++ after) (⟨n, ps⟩ :: fs))
    (hq : AllSettled after qs) : SettledFrames after (⟨n, ps ++ qs⟩ :: fs) := by
  obtain ⟨hps, hfs⟩ := h
  refine ⟨allSettled_append.mpr ⟨hps, hq⟩, ?_⟩
  rw [textOf_append, List.append_assoc]
  exact hfs

namespace Waiting

theorem adds (h : Waiting m outer tags (⟨n, ps⟩ :: fs)) (qs : List Piece) :
    Waiting m outer tags (⟨n, ps ++ qs⟩ :: fs) := by
  cases h with
  | none => exact .none _
  | text _ ht => exact .text _ ht
  | node hblock hopens hplace hrest => exact .node hblock (hopens.append qs) hplace hrest

theorem exists_cons (h : Waiting m outer tags frames) : ∃ n ps fs, frames = ⟨n, ps⟩ :: fs := by
  cases h <;> exact ⟨_, _, _, rfl⟩

/-- The outermost tag of the text element has no node. -/
theorem block_eq_none (h : Waiting m outer [t] frames)
    (ht : ({} : Options).isTextTag t.name = true) : t.block? = Option.none := by
  cases h with
  | text _ hblock => exact hblock
  | node _ _ hplace => exact Bool.noConfusion (ht.symm.trans (hplace rfl))

end Waiting

namespace Cursor

variable {σ : Type} {c d : Cursor σ}

/-- What holds between two tags as long as nothing was reported. -/
structure Between (m : Marker) (outer : List Frame) (c : Cursor σ) (tags : OpenTags) : Prop where
  context : c.context = {}
  frames : ∃ n ps fs, Views c n ps fs ∧ SettledFrames c.rest (⟨n, ps⟩ :: fs) ∧
    Waiting m outer tags (⟨n, ps⟩ :: fs)

namespace Between

theorem adds (h : Between m outer c tags) (hadds : Adds qs c d) (hq : AllSettled d.rest qs) :
    Between m outer d tags := by
  obtain ⟨n, ps, fs, hview, hsettled, hwaiting⟩ := h.frames
  refine ⟨hadds.context.trans h.context, n, ps ++ qs, fs, hadds.view hview, ?_, hwaiting.adds qs⟩
  rw [hadds.rest] at hsettled
  exact hsettled.adds hq

theorem grows (h : Between m outer c tags) (hgrows : Grows Free c d) : Between m outer d tags := by
  obtain ⟨qs, hqs, hfree⟩ := hgrows
  exact h.adds hqs (allSettled_free hfree)

/-- A finished tag block. -/
theorem block (h : Between m outer c tags) (hadds : Adds ps c.start.2 d) (hps : AllSettled d.rest ps)
    (hblock : TagBlock.Settled ⟨ps, d.rest⟩) : Between m outer (d.complete c.start.1 .tagBlock) tags := by
  have hrest : (d.complete c.start.1 .tagBlock).rest = d.rest := by simp [Cursor.rest]
  refine h.adds (hadds.node .tagBlock (by decide)) ?_
  rw [hrest]
  exact allSettled_tagBlock hblock hps

/-- A tag that stays open. -/
theorem push (h : Between m outer c tags) (hadds : Adds ps c.start.2 d) (hps : AllSettled d.rest ps)
    (hblock : t.block? = some c.start.1) (hopens : Opens t.name ps)
    (hplace : tags = [] → ({} : Options).isTextTag t.name = false) :
    Between m outer d (t :: tags) := by
  obtain ⟨n, os, fs, hview, hsettled, hwaiting⟩ := h.frames
  have hstart : c.start.2.rest = c.rest := by simp [Cursor.rest]
  refine ⟨hadds.context.trans ((context_flush c _).trans h.context), c.start.1, ps, _,
    ?_, ⟨hps, ?_⟩, .node hblock hopens hplace hwaiting⟩
  · have hinner := hadds.view hview.start
    rwa [List.nil_append] at hinner
  · rw [← hadds.rest, hstart]
    exact hsettled

/-- A tag that is closed by its end tag. -/
theorem pop (h : Between m outer c (t :: tags)) (hadds : Adds [.part .tagBlock inner] c d)
    (hfree : ∀ p ∈ inner, p.Free) (hend : isEndTag t.name inner = true) :
    Between m outer (t.close d) tags := by
  have hlast : AllSettled d.rest [.part .tagBlock inner] :=
    allSettled_tagBlock (settled_of_isEndTag hend) (allSettled_free hfree)
  obtain ⟨n, ps, fs, hview, hsettled, hwaiting⟩ := h.frames
  rw [hadds.rest] at hsettled
  have hview' := hadds.view hview
  have hsettled' := hsettled.adds hlast
  have hcontext := hadds.context.trans h.context
  unfold OpenTag.close
  cases hwaiting with
  | text _ hblock =>
    rw [hblock]
    exact ⟨hcontext, m, _, outer, hview', hsettled', .none _⟩
  | node hblock hopens hplace hrest =>
    obtain ⟨n', ps', fs', rfl⟩ := hrest.exists_cons
    rw [hblock]
    have hrest' : (d.complete n .tagBlock).rest = d.rest := by simp [Cursor.rest]
    obtain ⟨hinside, houtside⟩ := hsettled'
    have hnode : AllSettled d.rest [.part .tagBlock (ps ++ [.part .tagBlock inner])] :=
      allSettled_tagBlock (hopens.settled hend) hinside
    have hfinished : SettledFrames d.rest (⟨n', ps' ++ [.part .tagBlock
        (ps ++ [.part .tagBlock inner])]⟩ :: fs') := by
      refine SettledFrames.adds ?_ hnode
      simpa [textOf, Piece.text] using houtside
    refine ⟨(context_complete d _ _).trans hcontext, n', _, fs',
      hview'.complete .tagBlock (by decide), ?_, hrest.adds _⟩
    rw [hrest']
    exact hfinished

end Between

end Cursor

end TemplateMarkup
