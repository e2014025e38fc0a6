import TemplateMarkup.Proofs.Takes
import TemplateMarkup.Proofs.TokenNodes

/-! # Tokens that a call claims

Code accepts some of the tokens in front of it and makes one node of them.
`Gathers` is the accepting, stretch by stretch, where the last token of a stretch
may be the front part of one. `Claims` is the whole call: these tokens, and
nothing beyond them, become a node. -/

namespace TemplateMarkup.Cursor

open Token

variable {σ : Type} {c d e : Cursor σ} {used more rest : List Token} {t : Token} {kind : Kind}

/-- These tokens are accepted, or parts of them, and nothing else happens. -/
structure Gathers (used : List Token) (c d : Cursor σ) : Prop where
  eq : d = { c with pending := used.reverse ++ c.pending, ahead := d.ahead }
  text : textOf c.ahead = textOf used ++ textOf d.ahead
  texts : (∀ t ∈ c.ahead, t.text ≠ []) → ∀ t ∈ used ++ d.ahead, t.text ≠ []

namespace Gathers

theorem refl (c : Cursor σ) : Gathers [] c c := ⟨rfl, rfl, id⟩

theorem trans (h : Gathers used c d) (h' : Gathers more d e) : Gathers (used ++ more) c e where
  eq := by
    rw [h'.eq, h.eq]
    simp
  text := by rw [h.text, h'.text, textOf_append, List.append_assoc]
  texts hc := by
    have hd := List.forall_mem_append.mp (h.texts hc)
    rw [List.append_assoc, List.forall_mem_append]
    exact ⟨hd.1, h'.texts hd.2⟩

theorem held (h : Gathers used c d) : d.held = c.held := by rw [h.eq]

theorem bumpN (hh : c.held = []) (ha : c.ahead = used ++ rest) :
    Gathers used c (c.bumpN used.length) := by
  rw [bumpN_eq hh, ha, List.take_left, List.drop_left]
  exact ⟨rfl, by simp [ha], by simp [ha]⟩

theorem bump (hh : c.held = []) (ha : c.ahead = t :: rest) : Gathers [t] c c.bump := by
  have hone : Gathers [t] c (c.bumpN [t].length) := bumpN hh ha
  exact hone

/-- The next token, if there is one, is taken if it is of the kind. -/
theorem eat (hh : c.held = []) (ha : ∀ t ∈ c.ahead.head?, t.kind = kind) :
    Gathers (c.ahead.take 1) c (c.eat kind).2 ∧ (c.eat kind).2.ahead = c.ahead.drop 1 := by
  cases hahead : c.ahead with
  | nil =>
    have hsame : (c.eat kind).2 = c := by
      unfold Cursor.eat
      split
      · exact bump_nil hahead
      · rfl
    rw [hsame]
    exact ⟨refl c, hahead⟩
  | cons t rest =>
    have hk : t.kind = kind := ha t (by rw [hahead]; rfl)
    rw [(Takes.eat_true hh hahead hk).1]
    exact ⟨bump hh hahead, by rw [ahead_bump, hahead]; rfl⟩

/-- A token is taken up to the end of its front part. -/
theorem front {count : Nat} (hh : c.held = []) (ha : c.ahead = t :: rest) (hpos : 0 < count)
    (hle : count ≤ t.text.length) :
    Gathers [⟨t.kind, t.text.take count⟩] c (c.splitAfter count).bump ∧
      (c.splitAfter count).bump.ahead =
        if count < t.text.length then ⟨t.kind, t.text.drop count⟩ :: rest else rest := by
  by_cases hlt : count < t.text.length
  · have hsplit : c.splitAfter count =
        { c with ahead := ⟨t.kind, t.text.take count⟩ :: ⟨t.kind, t.text.drop count⟩ :: rest } := by
      rw [splitAfter, ha]
      exact if_pos ⟨hpos, hlt⟩
    rw [hsplit, if_pos hlt]
    refine ⟨⟨by simp [Cursor.bump, hh], ?_, fun hc => ?_⟩, rfl⟩
    · simp only [ha, Cursor.bump, textOf_cons, textOf_nil, List.append_nil]
      rw [← List.append_assoc, List.take_append_drop]
    · have hrest : ∀ u ∈ rest, u.text ≠ [] := fun u hu => hc u (by simp [ha, hu])
      simp only [Cursor.bump, List.singleton_append, List.forall_mem_cons]
      refine ⟨List.ne_nil_of_length_pos ?_, List.ne_nil_of_length_pos ?_, hrest⟩
      · rw [List.length_take]
        omega
      · rw [List.length_drop]
        omega
  · obtain rfl : count = t.text.length := Nat.le_antisymm hle (Nat.le_of_not_lt hlt)
    have hsplit : c.splitAfter t.text.length = c := by simp [splitAfter, ha]
    rw [hsplit, if_neg hlt, List.take_length]
    exact ⟨bump hh ha, by rw [ahead_bump, ha]; rfl⟩

end Gathers

/-- These tokens become a node of the kind, and nothing else happens. -/
structure Claims (kind : Kind) (used : List Token) (c d : Cursor σ) : Prop where
  events : d.events.toList =
    (c.flush .literal).events.toList ++ (TokenNode.tree ⟨kind, used⟩).events
  flushed : d.flushed = used.reverse ++ (c.flush .literal).flushed
  pending : d.pending = []
  held : d.held = []
  text : textOf c.ahead = textOf used ++ textOf d.ahead
  diagnostics : d.diagnostics = c.diagnostics
  context : d.context = c.context
  host : d.host = c.host
  fault : d.fault = c.fault

/-- What is gathered between its start and its completion is the node. -/
theorem Gathers.claims (h : Gathers used c.start.2 d) (hh : c.held = [])
    (htexts : ∀ t ∈ c.ahead, t.text ≠ []) (kind : Kind) :
    Claims kind used c (d.flushRaw.complete c.start.1 kind) := by
  have hstart : c.start.2.pending = [] := pending_flush c _
  have hpending : d.pending.reverse = used := by rw [h.eq, hstart]; simp
  have hused : ∀ t ∈ used, t.text ≠ [] :=
    (List.forall_mem_append.mp (h.texts (by rwa [ahead_start]))).1
  have hlist : d.flushRaw.events.toList = (c.flush .literal).events.toList ++
      .placeholder :: Tree.eventsOf (used.map Tree.ofToken) := by
    rw [events_flushRaw, hpending, Tree.eventsOf_map_ofToken hused, h.eq]
    simp [start]
  have hget : d.flushRaw.events[c.start.1.index]? = some .placeholder := by
    rw [← Array.getElem?_toList, hlist]
    simp [start]
  have hflush : d.flushRaw.flush .literal = d.flushRaw := flush_of_pending rfl _
  have hcomplete := complete_eq (by rwa [hflush]) kind
  rw [hflush] at hcomplete
  rw [hcomplete]
  constructor
  case events =>
    simp only [Array.toList_push, Array.toList_setIfInBounds, hlist]
    rw [List.set_append_right _ _ (by simp [start])]
    simp [start, Tree.events, TokenNode.tree]
  case flushed =>
    show d.pending ++ d.flushed = _
    rw [← hpending, List.reverse_reverse, h.eq]
    rfl
  case pending => rfl
  case held => exact h.held.trans ((held_start c).trans hh)
  case text => exact (ahead_start c).symm ▸ h.text
  case diagnostics => exact (congrArg Cursor.diagnostics h.eq).trans (diagnostics_flush c _)
  case context => exact (congrArg Cursor.context h.eq).trans (context_flush c _)
  case host => exact (congrArg Cursor.host h.eq).trans (host_flush c _)
  case fault => exact (congrArg Cursor.fault h.eq).trans (fault_flush c _)

end TemplateMarkup.Cursor
