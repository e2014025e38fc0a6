import TemplateMarkup.Cursor.Lemmas
import TemplateMarkup.Proofs.Balance

/-! # Paths of cursor operations

`Step` lists what a client may do with a cursor; it owns the nodes that it has
started and not closed. `Sound` is what every step keeps, so whatever is built
from steps keeps it too (`Path.sound`): no fault, no token lost or emptied, the
taken tokens in order, balanced events, and a placeholder for every open node.
Nodes may be closed in any order. A strict client gives up no node and reports
nothing outside the source, so that its placeholders are those of the nodes it
owns and every range lies in the source. -/

namespace TemplateMarkup

/-- A range in order that ends within a source of the width. -/
def Range.Fits (r : Range) (width : Nat) : Prop := r.start ≤ r.stop ∧ r.stop ≤ width

namespace Cursor

open Event

variable {σ : Type}

/-- One operation on a cursor by a client that owns the markers. -/
inductive Step (strict : Prop) : Cursor σ → List Marker → Cursor σ → List Marker → Prop
  | bump {c ms} : Step strict c ms c.bump ms
  | advance {c ms} : Step strict c ms c.advance ms
  | acceptRead {c ms} : Step strict c ms c.acceptRead ms
  | rewind {c ms} (index : Nat) : index ≤ c.tokens.length → Step strict c ms (c.rewind index) ms
  | splitAfter {c ms} (count : Nat) : Step strict c ms (c.splitAfter count) ms
  | flush {c ms} (kind : Kind) : Step strict c ms (c.flush kind) ms
  | flushRaw {c ms} : Step strict c ms c.flushRaw ms
  | missing {c ms} (kind : Kind) : Step strict c ms (c.missing kind) ms
  | start {c ms} : Step strict c ms c.start.2 (c.start.1 :: ms)
  | complete {c m ms} (kind : Kind) : Step strict c (m :: ms) (c.complete m kind) ms
  | abandon {c m ms} : ¬ strict → Step strict c (m :: ms) (c.abandon m) ms
  | report {c ms} (problem : Problem) (range : Range) :
      range.start ≤ range.stop → (strict → range.stop ≤ Text.width c.text) →
      Step strict c ms (c.report problem range) ms
  | context {c ms} (context : Context) : Step strict c ms { c with context := context } ms
  | host {c ms} (host : σ) : Step strict c ms { c with host := host } ms
  /-- In which order the client keeps its markers is its own affair. -/
  | reorder {c ms ns} : ms.Perm ns → Step strict c ms c ns

variable {strict : Prop} {base : List Event} {ms ns : List Marker} {c d : Cursor σ}

/-- A run of operations. -/
inductive Path (strict : Prop) (c : Cursor σ) (ms : List Marker) : Cursor σ → List Marker → Prop
  | refl : Path strict c ms c ms
  | tail {d e : Cursor σ} {ns ps : List Marker} :
      Path strict c ms d ns → Step strict d ns e ps → Path strict c ms e ps

theorem Path.trans {e : Cursor σ} {ps : List Marker} (h : Path strict c ms d ns)
    (h' : Path strict d ns e ps) : Path strict c ms e ps := by
  induction h' with
  | refl => exact h
  | tail _ s ih => exact ih.tail s

/-- What holds of a cursor whose events began as `base` and whose client owns
the markers. -/
structure Sound (strict : Prop) (base : List Event) (ms : List Marker) (c : Cursor σ) : Prop where
  fault : c.fault = none
  overrun : c.overrun = 0
  nonempty : ∀ t ∈ c.tokens, t.text ≠ []
  taken : takenKinds c.events.toList = c.flushed.reverse.map Token.kind
  balanced : ∃ own, c.events.toList = base ++ own ∧ Balanced own
  nodup : ms.Nodup
  waiting : ∀ m ∈ ms, base.length ≤ m.index ∧ c.events.toList[m.index]? = some .placeholder
  owned : strict → ∀ i, base.length ≤ i → c.events.toList[i]? = some .placeholder → ⟨i⟩ ∈ ms
  within : strict → ∀ d ∈ c.diagnostics.toList, d.range.Fits (Text.width c.text)

namespace Sound

/-- A cursor that differs in nothing but its place and its tokens. -/
theorem of_events_eq (h : Sound strict base ms c) (hfault : d.fault = c.fault)
    (hoverrun : d.overrun = c.overrun) (htexts : ∀ t ∈ d.tokens, t.text ≠ [])
    (hevents : d.events = c.events) (hflushed : d.flushed = c.flushed)
    (hwithin : strict → ∀ p ∈ d.diagnostics.toList, p.range.Fits (Text.width d.text)) :
    Sound strict base ms d where
  fault := hfault.trans h.fault
  overrun := hoverrun.trans h.overrun
  nonempty := htexts
  taken := by rw [hevents, hflushed]; exact h.taken
  balanced := by rw [hevents]; exact h.balanced
  nodup := h.nodup
  waiting := by rw [hevents]; exact h.waiting
  owned := by rw [hevents]; exact h.owned
  within := hwithin

/-- What was reported stays within the source. -/
theorem within_of_eq (h : Sound strict base ms c) (hdiagnostics : d.diagnostics = c.diagnostics)
    (htext : d.text = c.text) :
    strict → ∀ p ∈ d.diagnostics.toList, p.range.Fits (Text.width d.text) := by
  rw [hdiagnostics, htext]
  exact h.within

/-- Balanced events behind the others, with the tokens that they take flushed. -/
theorem extend (h : Sound strict base ms c) (new : List Event) (taken : List Token)
    (hfault : d.fault = c.fault) (hoverrun : d.overrun = c.overrun)
    (htokens : d.tokens = c.tokens) (hevents : d.events.toList = c.events.toList ++ new)
    (hflushed : d.flushed = taken ++ c.flushed) (hdiagnostics : d.diagnostics = c.diagnostics)
    (hnew : Balanced new) (hfilled : .placeholder ∉ new)
    (htaken : takenKinds new = taken.reverse.map Token.kind) : Sound strict base ms d where
  fault := hfault.trans h.fault
  overrun := hoverrun.trans h.overrun
  nonempty := by rw [htokens]; exact h.nonempty
  taken := by rw [hevents, takenKinds_append, h.taken, htaken, hflushed]; simp
  balanced := by
    obtain ⟨own, hown, hb⟩ := h.balanced
    exact ⟨own ++ new, by rw [hevents, hown, List.append_assoc], hb.append hnew⟩
  nodup := h.nodup
  waiting := by
    intro m hm
    obtain ⟨hle, hget⟩ := h.waiting m hm
    refine ⟨hle, ?_⟩
    rw [hevents, List.getElem?_append_left (List.getElem?_eq_some_iff.mp hget).1]
    exact hget
  owned hstrict i hle hget := by
    rw [hevents, List.getElem?_append] at hget
    split at hget
    · exact h.owned hstrict i hle hget
    · exact absurd (List.mem_of_getElem? hget) hfilled
  within := h.within_of_eq hdiagnostics (text_congr htokens)

theorem takenKinds_tokens (ts : List Token) :
    takenKinds (ts.reverse.map fun t => .token t.kind 1) = ts.reverse.map Token.kind := by
  generalize ts.reverse = us
  induction us with
  | nil => rfl
  | cons t us ih => simpa [takenKinds] using ih

theorem balanced_tokens (ts : List Token) :
    Balanced (ts.reverse.map fun t => .token t.kind 1) := by
  have h := Balanced.map_token (ts.reverse.map Token.kind)
  rwa [List.map_map] at h

theorem filled_tokens (ts : List Token) :
    Event.placeholder ∉ ts.reverse.map fun t => Event.token t.kind 1 := by simp

theorem flush (h : Sound strict base ms c) (kind : Kind) : Sound strict base ms (c.flush kind) := by
  refine h.extend _ c.pending (fault_flush c kind) (overrun_flush c kind)
    (tokens_flush c kind) (events_flush c kind) (flushed_flush c kind) (diagnostics_flush c kind)
    ?_ ?_ ?_
  · unfold flushEvents
    split
    · exact Balanced.nil
    · exact (balanced_tokens c.pending).node kind
  · unfold flushEvents
    split <;> simp
  · unfold flushEvents
    split
    · next hp => rw [List.isEmpty_iff.mp hp]; rfl
    · rw [takenKinds_append, ← takenKinds_tokens]
      simp [takenKinds]

theorem flushRaw (h : Sound strict base ms c) : Sound strict base ms c.flushRaw :=
  h.extend _ c.pending rfl rfl (tokens_flushRaw c) (events_flushRaw c) rfl rfl
    (balanced_tokens c.pending) (filled_tokens c.pending) (takenKinds_tokens c.pending)

theorem missing (h : Sound strict base ms c) (kind : Kind) : Sound strict base ms (c.missing kind) :=
  (h.flush .literal).extend [.token kind 0] [] rfl rfl rfl
    (by simp [Cursor.missing]) rfl rfl (Balanced.singleton_token kind 0) (by simp) rfl

theorem start (h : Sound strict base ms c) : Sound strict base (c.start.1 :: ms) c.start.2 := by
  have hf := h.flush .literal
  have hevents : c.start.2.events.toList = (c.flush .literal).events.toList ++ [.placeholder] := by
    simp [Cursor.start]
  have hindex : c.start.1.index = (c.flush .literal).events.toList.length := by
    simp [Cursor.start]
  obtain ⟨own, hown, hb⟩ := hf.balanced
  refine ⟨hf.fault, hf.overrun, hf.nonempty, ?_, ?_, List.nodup_cons.mpr ⟨?_, hf.nodup⟩, ?_, ?_,
    hf.within⟩
  · rw [hevents, takenKinds_append, hf.taken]
    exact List.append_nil _
  · exact ⟨own ++ [.placeholder], by rw [hevents, hown, List.append_assoc],
      hb.append Balanced.singleton_placeholder⟩
  · intro hm
    -- an owned marker points at an event, the new one behind all events
    have hlt := (List.getElem?_eq_some_iff.mp (hf.waiting _ hm).2).1
    omega
  · intro m hm
    rcases List.mem_cons.mp hm with rfl | hm
    · refine ⟨by rw [hindex, hown]; simp, ?_⟩
      rw [hevents, hindex, List.getElem?_concat_length]
    · obtain ⟨hle, hget⟩ := hf.waiting m hm
      refine ⟨hle, ?_⟩
      rw [hevents, List.getElem?_append_left (List.getElem?_eq_some_iff.mp hget).1]
      exact hget
  · intro hstrict i hle hget
    rw [hevents, List.getElem?_append] at hget
    split at hget
    · exact List.mem_cons_of_mem _ (hf.owned hstrict i hle hget)
    · next hge =>
      have hlt := (List.getElem?_eq_some_iff.mp hget).1
      have hi : c.start.1 = ⟨i⟩ := by
        cases hc : c.start.1
        simp only [hc, List.length_singleton] at hindex hlt
        simp only [Marker.mk.injEq]
        omega
      rw [hi]
      exact List.mem_cons_self ..

theorem markers_ne {m : Marker} (h : Sound strict base (m :: ms) c) {n : Marker} (hn : n ∈ ms) :
    n.index ≠ m.index := by
  intro he
  have : n = m := by cases n; cases m; simpa using he
  exact (List.nodup_cons.mp h.nodup).1 (this ▸ hn)

/-- Only a client that is not strict may leave a placeholder to nobody. -/
theorem drop_marker {m : Marker} (h : Sound strict base (m :: ms) c) (hs : ¬ strict) :
    Sound strict base ms c :=
  { h with
    nodup := (List.nodup_cons.mp h.nodup).2
    waiting := fun n hn => h.waiting n (List.mem_cons_of_mem m hn)
    owned := fun hstrict => absurd hstrict hs }

/-- An owned marker points at a placeholder among the events of the client. -/
theorem exists_split {m : Marker} (h : Sound strict base (m :: ms) c) :
    ∃ a b, c.events.toList = base ++ (a ++ .placeholder :: b) ∧
      m.index = base.length + a.length ∧ Balanced (a ++ .placeholder :: b) := by
  obtain ⟨hle, hget⟩ := h.waiting m (List.mem_cons_self ..)
  obtain ⟨own, hown, hb⟩ := h.balanced
  obtain ⟨k, hk⟩ := Nat.exists_eq_add_of_le hle
  rw [hown, hk, List.getElem?_append_right (by omega), Nat.add_sub_cancel_left] at hget
  obtain ⟨hklt, hke⟩ := List.getElem?_eq_some_iff.mp hget
  have hsplit : own = own.take k ++ .placeholder :: own.drop (k + 1) := by
    rw [← hke, List.getElem_cons_drop, List.take_append_drop]
  refine ⟨own.take k, own.drop (k + 1), by rw [hown, ← hsplit], ?_, hsplit ▸ hb⟩
  rw [hk, List.length_take_of_le (by omega)]

theorem complete {m : Marker} (h : Sound strict base (m :: ms) c) (kind : Kind) :
    Sound strict base ms (c.complete m kind) := by
  have hf := h.flush .literal
  obtain ⟨-, hget⟩ := hf.waiting m (List.mem_cons_self ..)
  have hget' : (c.flush .literal).events[m.index]? = some .placeholder := by simpa using hget
  have hevents : (c.complete m kind).events.toList =
      (c.flush .literal).events.toList.set m.index (.start kind) ++ [.finish] := by
    simp [Cursor.complete, hget']
  have hfields : (c.complete m kind).fault = (c.flush .literal).fault ∧
      (c.complete m kind).overrun = (c.flush .literal).overrun ∧
      (c.complete m kind).flushed = (c.flush .literal).flushed := by
    simp [Cursor.complete, hget']
  obtain ⟨a, b, hab, hindex, hb⟩ := hf.exists_split
  have hset : (c.flush .literal).events.toList.set m.index (.start kind) =
      base ++ (a ++ .start kind :: b) := by
    rw [hab, hindex, List.set_append_right _ _ (by omega), Nat.add_sub_cancel_left,
      List.set_append_right _ _ (by omega), Nat.sub_self]
    rfl
  refine ⟨by rw [hfields.1]; exact hf.fault, by rw [hfields.2.1]; exact hf.overrun,
    by rw [tokens_complete]; exact h.nonempty, ?_, ?_, (List.nodup_cons.mp h.nodup).2, ?_, ?_,
    h.within_of_eq (diagnostics_complete c m kind) (text_congr (tokens_complete c m kind))⟩
  · have ht := hf.taken
    rw [hab] at ht
    rw [hevents, hset, hfields.2.2, ← ht]
    simp [takenKinds]
  · refine ⟨a ++ .start kind :: b ++ [.finish], by rw [hevents, hset]; simp, ?_⟩
    exact hb.fill kind
  · intro n hn
    obtain ⟨hnle, hnget⟩ := hf.waiting n (List.mem_cons_of_mem m hn)
    refine ⟨hnle, ?_⟩
    rw [hevents, List.getElem?_append_left
      (by rw [List.length_set]; exact (List.getElem?_eq_some_iff.mp hnget).1),
      List.getElem?_set_ne (Ne.symm (h.markers_ne hn))]
    exact hnget
  · intro hstrict i hile higet
    rw [hevents, List.getElem?_append] at higet
    split at higet
    · have hne : m.index ≠ i := by
        rintro rfl
        rw [List.getElem?_set_self (List.getElem?_eq_some_iff.mp hget).1] at higet
        cases higet
      rw [List.getElem?_set_ne hne] at higet
      rcases List.mem_cons.mp (hf.owned hstrict i hile higet) with rfl | hi
      · exact absurd rfl hne
      · exact hi
    · exact absurd (List.mem_of_getElem? higet) (by simp)

theorem abandon {m : Marker} (h : Sound strict base (m :: ms) c) (hs : ¬ strict) :
    Sound strict base ms (c.abandon m) := by
  obtain ⟨-, hget⟩ := h.waiting m (List.mem_cons_self ..)
  have hget' : c.events[m.index]? = some .placeholder := by simpa using hget
  rw [Cursor.abandon]
  by_cases hlast : m.index + 1 = c.events.size
  · rw [if_pos hlast, if_pos hget']
    -- the placeholder is the last event, and no other marker points at it
    obtain ⟨a, b, hab, hindex, hb⟩ := h.exists_split
    have hlen : c.events.toList.length = m.index + 1 := by simpa using hlast.symm
    obtain rfl : b = [] := by
      rw [hab, hindex] at hlen
      simp only [List.length_append, List.length_cons] at hlen
      exact List.length_eq_zero_iff.mp (by omega)
    have hpop : c.events.pop.toList = base ++ a := by
      rw [Array.toList_pop, hab, ← List.append_assoc, List.dropLast_concat]
    refine ⟨h.fault, h.overrun, h.nonempty, ?_, ?_, (List.nodup_cons.mp h.nodup).2, ?_,
      fun hstrict => absurd hstrict hs, h.within⟩
    · rw [hpop, ← h.taken, hab]
      simp [takenKinds]
    · exact ⟨a, hpop, hb.of_append_placeholder⟩
    · intro n hn
      obtain ⟨hnle, hnget⟩ := h.waiting n (List.mem_cons_of_mem m hn)
      refine ⟨hnle, ?_⟩
      have hnlt := (List.getElem?_eq_some_iff.mp hnget).1
      have hnm := h.markers_ne hn
      rw [Array.toList_pop, List.getElem?_dropLast, if_pos (by omega)]
      exact hnget
  · rw [if_neg hlast]
    exact h.drop_marker hs

theorem bump (h : Sound strict base ms c) : Sound strict base ms c.bump := by
  refine h.of_events_eq ?_ ?_ (by rw [tokens_bump]; exact h.nonempty) ?_ ?_
    (h.within_of_eq (diagnostics_bump c) (text_congr (tokens_bump c))) <;>
    unfold Cursor.bump <;> split <;> rfl

theorem advance (h : Sound strict base ms c) : Sound strict base ms c.advance := by
  refine h.of_events_eq ?_ ?_ (by rw [tokens_advance]; exact h.nonempty) ?_ ?_
    (h.within_of_eq (diagnostics_advance c) (text_congr (tokens_advance c))) <;>
    unfold Cursor.advance <;> split <;> rfl

theorem acceptRead (h : Sound strict base ms c) : Sound strict base ms c.acceptRead := by
  refine h.of_events_eq ?_ ?_ (by rw [tokens_acceptRead]; exact h.nonempty) ?_ ?_
    (h.within_of_eq (diagnostics_acceptRead c) (text_congr (tokens_acceptRead c))) <;>
    simp only [Cursor.acceptRead, h.overrun, if_pos]

theorem length_tokens (c : Cursor σ) :
    c.tokens.length = c.accepted + (c.held.reverse ++ c.ahead).length := by
  simp only [tokens, accepted, List.length_append, List.length_reverse]
  omega

theorem rewind (h : Sound strict base ms c) {index : Nat} (hi : index ≤ c.tokens.length) :
    Sound strict base ms (c.rewind index) := by
  refine ⟨h.fault, ?_, by rw [tokens_rewind]; exact h.nonempty, h.taken, h.balanced, h.nodup,
    h.waiting, h.owned, h.within_of_eq rfl (text_congr (tokens_rewind c index))⟩
  rw [length_tokens] at hi
  simp only [Cursor.rewind]
  omega

theorem putBack (h : Sound strict base ms c) : Sound strict base ms c.putBack :=
  h.rewind (by rw [length_tokens]; omega)

theorem splitAfter (h : Sound strict base ms c) (count : Nat) :
    Sound strict base ms (c.splitAfter count) := by
  have hwithin := h.within_of_eq (diagnostics_splitAfter c count) (text_splitAfter c count)
  unfold Cursor.splitAfter at hwithin ⊢
  split
  · exact h
  · next t rest ha =>
    split
    · next hcount =>
      rw [ha] at hwithin
      simp only [if_pos hcount] at hwithin
      refine h.of_events_eq rfl rfl ?_ rfl rfl hwithin
      have hne := h.nonempty
      intro u hu
      simp only [tokens, ha, List.mem_append, List.mem_cons] at hne hu
      rcases hu with hu | rfl | rfl | hu
      · exact hne u (.inl hu)
      · exact List.ne_nil_of_length_pos (by simp only [List.length_take]; omega)
      · exact List.ne_nil_of_length_pos (by simp only [List.length_drop]; omega)
      · exact hne u (.inr (.inr hu))
    · exact h

theorem report (h : Sound strict base ms c) (problem : Problem) {range : Range}
    (hr : range.start ≤ range.stop) (hw : strict → range.stop ≤ Text.width c.text) :
    Sound strict base ms (c.report problem range) := by
  unfold Cursor.report
  rw [if_neg (by omega)]
  refine h.of_events_eq rfl rfl h.nonempty rfl rfl fun hstrict p hp => ?_
  rw [Array.toList_push, List.mem_append, List.mem_singleton] at hp
  rcases hp with hp | rfl
  · exact h.within hstrict p hp
  · exact ⟨hr, hw hstrict⟩

theorem reorder (h : Sound strict base ms c) (hp : ms.Perm ns) : Sound strict base ns c :=
  { h with
    nodup := hp.nodup_iff.mp h.nodup
    waiting := fun m hm => h.waiting m (hp.mem_iff.mpr hm)
    owned := fun hstrict i hle hget => hp.mem_iff.mp (h.owned hstrict i hle hget) }

end Sound

/-! ## What a step keeps -/

theorem Step.sound (h : Sound strict base ms c) (s : Step strict c ms d ns) :
    Sound strict base ns d := by
  cases s with
  | bump => exact h.bump
  | advance => exact h.advance
  | acceptRead => exact h.acceptRead
  | rewind index hi => exact h.rewind hi
  | splitAfter count => exact h.splitAfter count
  | flush kind => exact h.flush kind
  | flushRaw => exact h.flushRaw
  | missing kind => exact h.missing kind
  | start => exact h.start
  | complete kind => exact h.complete kind
  | abandon hs => exact h.abandon hs
  | report problem range hr hw => exact h.report problem hr hw
  | context => exact h.of_events_eq rfl rfl h.nonempty rfl rfl h.within
  | host => exact h.of_events_eq rfl rfl h.nonempty rfl rfl h.within
  | reorder hp => exact h.reorder hp

/-- Only a split touches the tokens. -/
theorem Step.tokens_eq (s : Step strict c ms d ns) :
    d.tokens = c.tokens ∨ ∃ count, d = c.splitAfter count := by
  cases s with
  | splitAfter count => exact .inr ⟨count, rfl⟩
  | context | host | reorder => exact .inl rfl
  | bump => exact .inl (tokens_bump c)
  | advance => exact .inl (tokens_advance c)
  | acceptRead => exact .inl (tokens_acceptRead c)
  | rewind index => exact .inl (tokens_rewind c index)
  | flush kind => exact .inl (tokens_flush c kind)
  | flushRaw => exact .inl (tokens_flushRaw c)
  | missing kind => exact .inl (tokens_missing c kind)
  | start => exact .inl (tokens_start c)
  | complete kind => exact .inl (tokens_complete c _ kind)
  | abandon => exact .inl (tokens_abandon c _)
  | report problem range => exact .inl (tokens_report c problem range)

theorem Step.forall_tokens {P : Token → Prop} (hP : Token.Divisible P) (s : Step strict c ms d ns)
    (h : ∀ t ∈ c.tokens, P t) : ∀ t ∈ d.tokens, P t := by
  rcases s.tokens_eq with he | ⟨count, rfl⟩
  · rwa [he]
  · exact forall_tokens_splitAfter hP h count

theorem Step.text_eq (s : Step strict c ms d ns) : d.text = c.text := by
  rcases s.tokens_eq with h | ⟨count, rfl⟩
  · exact text_congr h
  · exact text_splitAfter c count

/-- A step may split a token, and never joins two. -/
theorem Step.length_tokens_le (s : Step strict c ms d ns) : c.tokens.length ≤ d.tokens.length := by
  rcases s.tokens_eq with h | ⟨count, rfl⟩
  · exact Nat.le_of_eq (congrArg List.length h.symm)
  · unfold Cursor.splitAfter
    split
    · exact Nat.le_refl _
    · next ha =>
      split
      · simp only [tokens, ha, List.length_append, List.length_cons]
        omega
      · exact Nat.le_refl _

theorem diagnostics_report (c : Cursor σ) (problem : Problem) (range : Range) :
    (c.report problem range).diagnostics = c.diagnostics.push ⟨problem, range⟩ := by
  unfold Cursor.report
  dsimp only
  split <;> rfl

/-- A step may report something, and takes no report back. -/
theorem Step.diagnostics_prefix (s : Step strict c ms d ns) :
    c.diagnostics.toList <+: d.diagnostics.toList := by
  have hsame (h : d.diagnostics = c.diagnostics) : c.diagnostics.toList <+: d.diagnostics.toList :=
    h ▸ List.prefix_refl _
  cases s with
  | rewind | flushRaw | start | context | host | reorder =>
    exact hsame (by simp [Cursor.rewind, Cursor.flushRaw, Cursor.start])
  | flush kind => exact hsame (diagnostics_flush c kind)
  | missing kind => exact hsame (diagnostics_flush c .literal)
  | complete kind => exact hsame (diagnostics_complete c _ kind)
  | bump => exact hsame (diagnostics_bump c)
  | advance => exact hsame (diagnostics_advance c)
  | acceptRead => exact hsame (diagnostics_acceptRead c)
  | splitAfter count => exact hsame (diagnostics_splitAfter c count)
  | abandon => exact hsame (diagnostics_abandon c _)
  | report problem range =>
    rw [diagnostics_report, Array.toList_push]
    exact List.prefix_append _ _

/-! ## What a path keeps -/

namespace Path

theorem sound (h : Sound strict base ms c) (p : Path strict c ms d ns) : Sound strict base ns d := by
  induction p with
  | refl => exact h
  | tail _ s ih => exact s.sound ih

theorem forall_tokens {P : Token → Prop} (hP : Token.Divisible P) (p : Path strict c ms d ns)
    (h : ∀ t ∈ c.tokens, P t) : ∀ t ∈ d.tokens, P t := by
  induction p with
  | refl => exact h
  | tail _ s ih => exact s.forall_tokens hP ih

theorem text_eq (p : Path strict c ms d ns) : d.text = c.text := by
  induction p with
  | refl => rfl
  | tail _ s ih => exact s.text_eq.trans ih

theorem length_tokens_le (p : Path strict c ms d ns) : c.tokens.length ≤ d.tokens.length := by
  induction p with
  | refl => exact Nat.le_refl _
  | tail _ s ih => exact Nat.le_trans ih s.length_tokens_le

theorem diagnostics_prefix (p : Path strict c ms d ns) :
    c.diagnostics.toList <+: d.diagnostics.toList := by
  induction p with
  | refl => exact List.prefix_refl _
  | tail _ s ih => exact ih.trans s.diagnostics_prefix

/-- Where nothing is reported in the end, nothing was before. -/
theorem silent (p : Path strict c ms d ns) (h : d.diagnostics = #[]) : c.diagnostics = #[] := by
  have hprefix := p.diagnostics_prefix
  rw [h] at hprefix
  exact Array.toList_eq_nil_iff.mp (List.prefix_nil.mp hprefix)

end Path

end Cursor

end TemplateMarkup
