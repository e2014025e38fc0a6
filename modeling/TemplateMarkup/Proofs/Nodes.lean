import TemplateMarkup.Proofs.Outcome

/-! # Nodes that are in the tree

A node that was given its kind at any point of a parse is in the tree in the
end: no step takes the start of a node back, and balanced events lose none. -/

namespace TemplateMarkup

namespace Tree

variable {kind : Kind}

mutual

/-- The kinds of the nodes of a tree. -/
def nodeKinds : Tree → List Kind
  | token .. => []
  | node kind children => kind :: nodeKindsOf children

def nodeKindsOf : List Tree → List Kind
  | [] => []
  | t :: ts => t.nodeKinds ++ nodeKindsOf ts

end

theorem mem_nodeKindsOf {ts : List Tree} :
    kind ∈ nodeKindsOf ts ↔ ∃ t ∈ ts, kind ∈ t.nodeKinds := by
  induction ts with
  | nil => simp [nodeKindsOf]
  | cons t ts ih => simp [nodeKindsOf, ih]

@[simp] theorem nodeKindsOf_append (a b : List Tree) :
    nodeKindsOf (a ++ b) = nodeKindsOf a ++ nodeKindsOf b := by
  induction a with
  | nil => rfl
  | cons t a ih => simp [nodeKindsOf, ih]

namespace Builder

variable {b c : Builder} {e : Event} {events : List Event}

/-- A node of the kind is open or finished. -/
def Has (kind : Kind) (b : Builder) : Prop :=
  (∃ f ∈ b.frames, f.1 = kind ∨ kind ∈ nodeKindsOf f.2) ∨ kind ∈ nodeKindsOf b.roots

theorem has_add (t : Tree) : (b.add t).Has kind ↔ b.Has kind ∨ kind ∈ t.nodeKinds := by
  unfold Has add
  cases b.frames with
  | nil => simp [nodeKindsOf, or_comm]
  | cons f outer =>
    simp [nodeKindsOf]
    grind

theorem length_frames_add (t : Tree) : (b.add t).frames.length = b.frames.length := by
  unfold add
  split <;> simp [*]

/-- A step keeps the nodes, and a start begins one. -/
theorem has_step (h : b.step e = some c) (hb : b.Has kind ∨ e = .start kind) : c.Has kind := by
  cases e with
  | start k =>
    obtain rfl := Option.some.inj h
    rcases hb with (⟨f, hf, hkind⟩ | hroots) | hk
    · exact .inl ⟨f, List.mem_cons_of_mem _ hf, hkind⟩
    · exact .inr hroots
    · exact .inl ⟨(k, []), List.mem_cons_self .., .inl (Event.start.inj hk)⟩
  | token k count =>
    simp only [step] at h
    split at h
    · obtain rfl := Option.some.inj h
      exact (has_add _).mpr (.inl (hb.resolve_right (by simp)))
    · cases h
  | finish =>
    have hb := hb.resolve_right (by simp)
    simp only [step] at h
    split at h
    · cases h
    · next k children outer hframes =>
      obtain rfl := Option.some.inj h
      rw [has_add]
      rcases hb with ⟨f, hf, hkind⟩ | hroots
      · rw [hframes] at hf
        rcases List.mem_cons.mp hf with rfl | hf
        · refine .inr ?_
          rw [nodeKinds, List.mem_cons]
          rcases hkind with rfl | hkind
          · exact .inl rfl
          · refine .inr (mem_nodeKindsOf.mpr ?_)
            obtain ⟨t, ht, hmem⟩ := mem_nodeKindsOf.mp hkind
            exact ⟨t, List.mem_reverse.mpr ht, hmem⟩
        · exact .inl (.inl ⟨f, hf, hkind⟩)
      · exact .inl (.inr hroots)
  | placeholder =>
    obtain rfl := Option.some.inj h
    exact hb.resolve_right (by simp)

theorem depth_step (h : b.step e = some c) :
    Event.depthStep b.frames.length e = some c.frames.length := by
  cases e with
  | start k =>
    obtain rfl := Option.some.inj h
    rfl
  | token k count =>
    simp only [step] at h
    split at h
    · obtain rfl := Option.some.inj h
      rw [length_frames_add]
      rfl
    · cases h
  | finish =>
    simp only [step] at h
    split at h
    · cases h
    · next k children outer hframes =>
      obtain rfl := Option.some.inj h
      rw [length_frames_add, hframes]
      rfl
  | placeholder =>
    obtain rfl := Option.some.inj h
    rfl

theorem has_foldlM (h : events.foldlM step b = some c) (hb : b.Has kind ∨ .start kind ∈ events) :
    c.Has kind := by
  induction events generalizing b with
  | nil =>
    obtain rfl := Option.some.inj h
    exact hb.resolve_right List.not_mem_nil
  | cons e events ih =>
    rw [List.foldlM_cons] at h
    obtain ⟨d, hstep, hrest⟩ := Option.bind_eq_some_iff.mp h
    refine ih hrest ?_
    rcases hb with hb | hb
    · exact .inl (has_step hstep (.inl hb))
    · rcases List.mem_cons.mp hb with rfl | hb
      · exact .inl (has_step hstep (.inr rfl))
      · exact .inr hb

theorem depth_foldlM (h : events.foldlM step b = some c) :
    Event.depthAfter b.frames.length events = some c.frames.length := by
  induction events generalizing b with
  | nil =>
    obtain rfl := Option.some.inj h
    rfl
  | cons e events ih =>
    rw [List.foldlM_cons] at h
    obtain ⟨d, hstep, hrest⟩ := Option.bind_eq_some_iff.mp h
    rw [Event.depthAfter, List.foldlM_cons, depth_step hstep]
    exact ih hrest

end Builder

/-- Balanced events build a tree that has all the nodes they start. -/
theorem mem_nodeKinds_of_ofEvents? {tokens : List Token} {events : List Event} {t : Tree}
    (h : ofEvents? tokens events = some t) (hb : Event.Balanced events)
    (hstart : .start kind ∈ events) : kind ∈ t.nodeKinds := by
  obtain ⟨c, hrun, htree⟩ := Option.bind_eq_some_iff.mp h
  have hframes : c.frames = [] := by
    have hdepth := Builder.depth_foldlM hrun
    rw [List.length_nil, hb] at hdepth
    exact List.length_eq_zero_iff.mp (Option.some.inj hdepth).symm
  have hroots : c.roots = [t] := by
    unfold Builder.tree? Builder.topLevel at htree
    rw [hframes] at htree
    split at htree
    · next hroots =>
      obtain rfl := Option.some.inj htree
      exact hroots
    · cases htree
  rcases Builder.has_foldlM hrun (.inr hstart) with ⟨f, hf, -⟩ | hmem
  · rw [hframes] at hf
    cases hf
  · rw [hroots] at hmem
    simpa [nodeKindsOf] using hmem

end Tree

namespace Cursor

variable {σ : Type} {strict : Prop} {base : List Event} {ms ns : List Marker} {c d : Cursor σ}
  {kind : Kind}

/-- A node of the kind has been given its kind. -/
def Begun (kind : Kind) (c : Cursor σ) : Prop := .start kind ∈ c.events.toList

theorem Begun.of_append (h : c.Begun kind) (new : List Event)
    (hd : d.events.toList = c.events.toList ++ new) : d.Begun kind := by
  rw [Begun, hd]
  exact List.mem_append_left _ h

theorem Begun.flush (h : c.Begun kind) (k : Kind) : (c.flush k).Begun kind :=
  h.of_append _ (events_flush c k)

theorem mem_set_placeholder {events : List Event} {i : Nat} (hi : events[i]? = some .placeholder)
    (e : Event) (h : .start kind ∈ events) : .start kind ∈ events.set i e := by
  obtain ⟨j, hj⟩ := List.mem_iff_getElem?.mp h
  refine List.mem_iff_getElem?.mpr ⟨j, ?_⟩
  rw [List.getElem?_set, if_neg]
  · exact hj
  · rintro rfl
    rw [hi] at hj
    cases hj

theorem Begun.abandon (h : c.Begun kind) (m : Marker) : (c.abandon m).Begun kind := by
  unfold Cursor.abandon
  split
  · next hlast =>
    split
    · next hget =>
      obtain ⟨j, hj⟩ := List.mem_iff_getElem?.mp h
      rw [← Array.getElem?_toList] at hget
      have hne : j ≠ m.index := by
        rintro rfl
        rw [hget] at hj
        cases hj
      have hlt := (List.getElem?_eq_some_iff.mp hj).1
      rw [Array.length_toList] at hlt
      refine List.mem_iff_getElem?.mpr ⟨j, ?_⟩
      rw [Array.toList_pop, List.getElem?_dropLast, if_pos (by rw [Array.length_toList]; omega)]
      exact hj
    · exact h
  · exact h

theorem Begun.complete (h : c.Begun kind) (m : Marker) (k : Kind) : (c.complete m k).Begun kind := by
  have hflush := h.flush .literal
  unfold Cursor.complete
  dsimp only
  split
  · next hget =>
    rw [← Array.getElem?_toList] at hget
    simp only [Begun, Array.toList_push, Array.toList_setIfInBounds]
    exact List.mem_append_left _ (mem_set_placeholder hget _ hflush)
  · exact hflush

/-- A node that is completed is begun. -/
theorem begun_complete {m : Marker} (h : Sound strict base (m :: ms) c) (kind : Kind) :
    (c.complete m kind).Begun kind := by
  obtain ⟨-, hget⟩ := (h.flush .literal).waiting m (List.mem_cons_self ..)
  have hevent : (c.flush .literal).events[m.index]? = some .placeholder := by
    rw [← Array.getElem?_toList]
    exact hget
  have hlt := (List.getElem?_eq_some_iff.mp hget).1
  simp only [Begun, complete_eq hevent, Array.toList_push, Array.toList_setIfInBounds]
  exact List.mem_append_left _ (List.mem_set hlt _)

/-- No step takes the start of a node back. -/
theorem Step.begun (s : Step strict c ms d ns) (h : c.Begun kind) : d.Begun kind := by
  cases s with
  | bump =>
    unfold Cursor.bump
    split <;> exact h
  | advance =>
    unfold Cursor.advance
    split <;> exact h
  | acceptRead =>
    unfold Cursor.acceptRead
    dsimp only
    split <;> exact h
  | splitAfter count =>
    unfold Cursor.splitAfter
    split
    · exact h
    · split <;> exact h
  | rewind | context | host | reorder => exact h
  | flush k => exact h.flush k
  | flushRaw => exact h.of_append _ (events_flushRaw c)
  | missing k => exact (h.flush .literal).of_append [.token k 0] (by simp [Cursor.missing])
  | start => exact (h.flush .literal).of_append [.placeholder] (by simp [Cursor.start])
  | complete k => exact h.complete _ k
  | report problem range =>
    unfold Cursor.report
    dsimp only
    split <;> exact h
  | abandon => exact h.abandon _

theorem Path.begun (p : Path strict c ms d ns) (h : c.Begun kind) : d.Begun kind := by
  induction p with
  | refl => exact h
  | tail _ s ih => exact s.begun ih

theorem Reaches.leaveRest {c₀ : Cursor σ} {ms₀ : List Marker} {gain : Nat}
    (h : Reaches strict base c₀ ms₀ gain c ms) :
    Reaches strict base c₀ ms₀ gain c.leaveRest ms := by
  unfold Cursor.leaveRest
  dsimp only
  split
  · exact h.putBack
  · exact ((h.putBack.start.bumpN _).flushRaw).complete .unparsed

theorem ofEvents?_of_result {p : Parse σ} (h : c.result = .ok p) :
    Tree.ofEvents? c.tokens c.events.toList = some p.tree := by
  unfold Cursor.result at h
  split at h
  · cases h
  · cases h
  · next htree =>
    cases h
    exact htree

end Cursor

namespace Parse

open Cursor

/-- Before the unit is read the root and the unit are started, and nothing else. -/
theorem sound_unitStart (strict : Prop) (source : String) :
    Sound strict [] [⟨1⟩, ⟨0⟩] (unitStart source) := by
  have hsource : Sound strict [] [] (ofSource source.toList { options := {} } ()) :=
    sound_unread (tokens_ofSource ..) rfl rfl rfl rfl rfl
  exact (Reaches.refl hsource).start.start.sound

/-- A node that is begun in the unit of a default parse is in the tree. -/
theorem mem_nodeKinds_of_begun {strict : Prop} {source : String} {kind : Kind}
    (hs : Sound strict [] [⟨1⟩, ⟨0⟩] (unitEnd source)) (hbegun : (unitEnd source).Begun kind)
    {p : Parse Unit} (hp : parse source = .ok p) : kind ∈ p.tree.nodeKinds := by
  have hresult : (Parser.finish {} .implicit () none source).result = .ok p := hp
  have hend : Reaches strict [] (unitEnd source) [⟨1⟩, ⟨0⟩] 0
      (Parser.finish {} .implicit () none source) [] := by
    rw [finish_eq]
    exact ((((Reaches.refl hs).complete .markupBlock).flush .literal).leaveRest).complete .root
  obtain ⟨own, hown, hbalanced⟩ := hend.sound.balanced
  rw [List.nil_append] at hown
  refine Tree.mem_nodeKinds_of_ofEvents? (ofEvents?_of_result hresult) ?_ (hend.path.begun hbegun)
  rw [hown]
  exact hbalanced

end Parse

end TemplateMarkup
