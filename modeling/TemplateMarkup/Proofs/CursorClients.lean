import Mathlib.Data.List.Perm.Basic
import TemplateMarkup.Proofs.Moves
import TemplateMarkup.Proofs.Tapes

/-! # Clients of a cursor

A client may use the operations of a cursor in any order, as long as it rewinds to no place
behind the last token and finishes only nodes that it has started. Its state is then always
that of a tape in good order: what is emitted is accepted and what is accepted is read, the
offsets are those of the tokens, the leaves are the tokens that are emitted, and each
unfinished node has its own placeholder. What is accepted stays as it is, and so does the
place of an unfinished node. -/

namespace TemplateMarkup

/-! ## Events -/

namespace Event

/-- The kinds of the leaves that stand for a token of the source. -/
def leafKinds (events : List Event) : List Kind :=
  events.filterMap fun
    | token kind 1 => some kind
    | _ => none

/-- A leaf is made of one token at most. -/
def Single : Event → Prop
  | token _ count => count ≤ 1
  | _ => True

/-- Up to the index nothing has changed, but that placeholders may have been given their kinds. -/
def KeptUpTo (index : Nat) (before after : List Event) : Prop :=
  ∀ i ≤ index, after[i]? = before[i]? ∨
    before[i]? = some placeholder ∧ ∃ kind, after[i]? = some (start kind)

/-- What one operation does to the events: it adds some, of which one may finish a node that gets
its kind, or takes the placeholder of a node away. The markers are those of the nodes that are
unfinished afterwards. -/
inductive Revision (ms : List Marker) (before : List Event) : List Event → Prop
  | add {new : List Event} : (∀ e ∈ new, e.Single) → Revision ms before (before ++ new)
  | fill {m : Marker} {kind : Kind} {new : List Event} : m ∉ ms → (∀ e ∈ new, e.Single) →
      before[m.index]? = some placeholder →
      Revision ms before (before.set m.index (start kind) ++ new)
  | drop {m : Marker} : m ∉ ms → before.length = m.index + 1 → Revision ms before before.dropLast

variable {before after events : List Event} {ms : List Marker} {m : Marker} {index : Nat}

theorem leafKinds_eq_takenKinds (h : ∀ e ∈ events, e.Single) :
    leafKinds events = takenKinds events := by
  induction events with
  | nil => rfl
  | cons e events ih =>
    have hrest := ih fun u hu => h u (List.mem_cons_of_mem e hu)
    have htaken := takenKinds_append [e] events
    rw [List.singleton_append] at htaken
    rw [htaken, ← hrest]
    cases e with
    | token kind count =>
      have hcount : count ≤ 1 := h _ (List.mem_cons_self ..)
      obtain rfl | rfl := Nat.le_one_iff_eq_zero_or_eq_one.mp hcount <;> rfl
    | start | finish | placeholder => rfl

theorem KeptUpTo.refl (index : Nat) (events : List Event) : KeptUpTo index events events :=
  fun _ _ => .inl rfl

theorem KeptUpTo.trans {further : List Event} (h : KeptUpTo index before after)
    (h' : KeptUpTo index after further) : KeptUpTo index before further := by
  intro i hi
  rcases h i hi, h' i hi with ⟨hsame | ⟨hplace, kind, hstart⟩, hsame' | ⟨hplace', hkind'⟩⟩
  · exact .inl (hsame'.trans hsame)
  · exact .inr ⟨hsame ▸ hplace', hkind'⟩
  · exact .inr ⟨hplace, kind, hsame'.trans hstart⟩
  · rw [hstart] at hplace'
    cases hplace'

theorem Revision.single (h : Revision ms before after) (hsingle : ∀ e ∈ before, e.Single) :
    ∀ e ∈ after, e.Single := by
  intro e he
  cases h with
  | add hnew =>
    rcases List.mem_append.mp he with he | he
    · exact hsingle e he
    · exact hnew e he
  | fill _ hnew =>
    rcases List.mem_append.mp he with he | he
    · rcases List.mem_or_eq_of_mem_set he with he | rfl
      · exact hsingle e he
      · trivial
    · exact hnew e he
  | drop => exact hsingle e ((List.dropLast_sublist _).subset he)

/-- The placeholder of an unfinished node stays where it is, and so does what is in front of it. -/
theorem Revision.keptUpTo (h : Revision ms before after) (hm : m ∈ ms)
    (hplace : before[m.index]? = some placeholder) : KeptUpTo m.index before after := by
  have hlt := (List.getElem?_eq_some_iff.mp hplace).1
  intro i hi
  cases h with
  | add => exact .inl (List.getElem?_append_left (by omega))
  | @fill n kind new hn _ hfilled =>
    rw [List.getElem?_append_left (by rw [List.length_set]; omega), List.getElem?_set]
    by_cases hi' : n.index = i
    · subst hi'
      exact .inr ⟨hfilled, kind, by simp; omega⟩
    · exact .inl (by rw [if_neg hi'])
  | @drop n hn hlength =>
    have hne : m.index ≠ n.index := by
      intro heq
      have : m = n := by cases m; cases n; simpa using heq
      exact hn (this ▸ hm)
    rw [List.getElem?_dropLast, if_pos (by omega)]
    exact .inl rfl

end Event

namespace Cursor

open Event

variable {σ : Type} {strict : Prop} {base : List Event} {ms ns : List Marker} {c d : Cursor σ}

theorem single_leaves (pending : List Token) :
    ∀ e ∈ pending.reverse.map fun t => token t.kind 1, e.Single := by
  simp [Single]

theorem single_flushEvents (kind : Kind) (pending : List Token) :
    ∀ e ∈ flushEvents kind pending, e.Single := by
  unfold flushEvents
  split
  · exact nofun
  · rw [List.cons_append, List.forall_mem_cons, List.forall_mem_append]
    exact ⟨trivial, single_leaves pending, by simp [Single]⟩

/-- One operation revises the events once. -/
theorem Step.revision (h : Sound strict base ms c) (s : Step strict c ms d ns) :
    Revision ns c.events.toList d.events.toList := by
  have hsame (he : d.events = c.events) : Revision ns c.events.toList d.events.toList := by
    rw [he]
    have hnothing : Revision ns c.events.toList (c.events.toList ++ []) := .add nofun
    rwa [List.append_nil] at hnothing
  have hflush (kind : Kind) : ∀ e ∈ flushEvents kind c.pending, e.Single :=
    single_flushEvents kind c.pending
  have hpush (e : Event) (he : e.Single) (hd : d.events = (c.flush .literal).events.push e) :
      Revision ns c.events.toList d.events.toList := by
    rw [hd, Array.toList_push, events_flush, List.append_assoc]
    exact .add (List.forall_mem_append.mpr ⟨hflush .literal, by simpa using he⟩)
  cases s with
  | bump => exact hsame (Moves.bump c).events
  | advance => exact hsame (Moves.advance c).events
  | acceptRead => exact hsame (Moves.acceptRead c).events
  | splitAfter count => exact hsame (Moves.splitAfter c count).events
  | rewind | context | host | reorder => exact hsame rfl
  | report problem range =>
    refine hsame ?_
    unfold Cursor.report
    dsimp only
    split <;> rfl
  | flush kind =>
    rw [events_flush]
    exact .add (hflush kind)
  | flushRaw =>
    rw [events_flushRaw]
    exact .add (single_leaves c.pending)
  | missing kind => exact hpush (.token kind 0) (Nat.zero_le 1) rfl
  | start => exact hpush .placeholder trivial rfl
  | @complete m _ kind =>
    have hplace := (h.waiting m (List.mem_cons_self ..)).2
    have hwaits := ((h.flush .literal).waiting m (List.mem_cons_self ..)).2
    have hevents : (c.complete m kind).events.toList = c.events.toList.set m.index (.start kind) ++
        (flushEvents .literal c.pending ++ [.finish]) := by
      rw [complete_eq (by simpa using hwaits), Array.toList_push, Array.toList_setIfInBounds,
        events_flush, List.set_append_left _ _ (List.getElem?_eq_some_iff.mp hplace).1,
        List.append_assoc]
    rw [hevents]
    exact .fill (List.nodup_cons.mp h.nodup).1
      (List.forall_mem_append.mpr ⟨hflush .literal, by simp [Single]⟩) hplace
  | @abandon m _ hs =>
    have hplace := (h.waiting m (List.mem_cons_self ..)).2
    by_cases hlast : m.index + 1 = c.events.size
    · have hevents : (c.abandon m).events.toList = c.events.toList.dropLast := by
        rw [Cursor.abandon, if_pos hlast, if_pos (by simpa using hplace), Array.toList_pop]
      rw [hevents]
      exact .drop (List.nodup_cons.mp h.nodup).1 (by simp [hlast])
    · exact hsame (by rw [Cursor.abandon, if_neg hlast])

/-! ## Clients -/

/-- What a client can ask of a cursor. Unfinished nodes are counted from the one started last. -/
inductive Operation where
  | bump
  | eat (kind : Kind)
  | advance
  | acceptRead
  | rewind (index : Nat)
  | split (byte : Nat)
  | flush (kind : Kind)
  | flushRaw
  | missing (kind : Kind)
  | start
  | complete (n : Nat) (kind : Kind)
  | abandon (n : Nat)
  deriving DecidableEq, Repr

/-- No place behind the last token is rewound to, and only an unfinished node is finished. -/
def Operation.Fits (tokenCount nodeCount : Nat) : Operation → Prop
  | rewind index => index ≤ tokenCount
  | complete n _ | abandon n => n < nodeCount
  | _ => True

instance (tokenCount nodeCount : Nat) (o : Operation) :
    Decidable (o.Fits tokenCount nodeCount) := by
  unfold Operation.Fits
  split <;> infer_instance

/-- A parse in the hands of a client, kept as a cursor or as a tape. -/
structure Client (α : Type) where
  parse : α
  /-- The nodes started and neither completed nor given up, the latest first. -/
  nodes : List Marker := []

namespace Client

def ofSource (source : List Char) (context : Context) (host : σ) : Client (Cursor σ) :=
  { parse := Cursor.ofSource source context host }

/-- The client's parse, laid out on a tape. -/
def tape (s : Client (Cursor σ)) : Client Tape := ⟨s.parse.tape, s.nodes⟩

/-- What an operation does to a cursor and to the nodes of its client. -/
def perform (s : Client (Cursor σ)) : Operation → Client (Cursor σ)
  | .bump => { s with parse := s.parse.bump }
  | .eat kind => { s with parse := (s.parse.eat kind).2 }
  | .advance => { s with parse := s.parse.advance }
  | .acceptRead => { s with parse := s.parse.acceptRead }
  | .rewind index => { s with parse := s.parse.rewind index }
  | .split byte => { s with parse := (s.parse.split? byte).getD s.parse }
  | .flush kind => { s with parse := s.parse.flush kind }
  | .flushRaw => { s with parse := s.parse.flushRaw }
  | .missing kind => { s with parse := s.parse.missing kind }
  | .start => ⟨s.parse.start.2, s.parse.start.1 :: s.nodes⟩
  | .complete n kind =>
    match s.nodes[n]? with
    | some m => ⟨s.parse.complete m kind, s.nodes.eraseIdx n⟩
    | none => s
  | .abandon n =>
    match s.nodes[n]? with
    | some m => ⟨s.parse.abandon m, s.nodes.eraseIdx n⟩
    | none => s

/-- What an operation does to a tape and to the nodes of its client. -/
def perform? (s : Client Tape) : Operation → Option (Client Tape)
  | .bump => some { s with parse := s.parse.bump }
  | .eat kind => some { s with parse := s.parse.eat kind }
  | .advance => some { s with parse := s.parse.advance }
  | .acceptRead => some { s with parse := s.parse.acceptRead }
  | .rewind index => some { s with parse := s.parse.rewind index }
  | .split byte => do some { s with parse := ← s.parse.split? byte }
  | .flush kind => do some { s with parse := ← s.parse.flush? kind }
  | .flushRaw => do some { s with parse := ← s.parse.flushRaw? }
  | .missing kind => do some { s with parse := ← s.parse.missing? kind }
  | .start => do
    let (m, t) ← s.parse.start?
    some ⟨t, m :: s.nodes⟩
  | .complete n kind => do
    let m ← s.nodes[n]?
    some ⟨← s.parse.complete? m kind, s.nodes.eraseIdx n⟩
  | .abandon n => do
    let m ← s.nodes[n]?
    some ⟨← s.parse.abandon? m, s.nodes.eraseIdx n⟩

def run (s : Client (Cursor σ)) (os : List Operation) : Client (Cursor σ) := os.foldl perform s

def run? (s : Client Tape) (os : List Operation) : Option (Client Tape) := os.foldlM perform? s

/-- Each of the operations fits where it is made. -/
def Orderly (s : Client (Cursor σ)) : List Operation → Prop
  | [] => True
  | o :: os => o.Fits s.parse.tokens.length s.nodes.length ∧ (s.perform o).Orderly os

instance decidableOrderly (s : Client (Cursor σ)) :
    (os : List Operation) → Decidable (s.Orderly os)
  | [] => inferInstanceAs (Decidable True)
  | o :: os =>
    have := decidableOrderly (s.perform o) os
    inferInstanceAs (Decidable (_ ∧ _))

/-- The node is unfinished from the beginning of the operations to their end. -/
def Unfinished (m : Marker) (s : Client (Cursor σ)) : List Operation → Prop
  | [] => m ∈ s.nodes
  | o :: os => m ∈ s.nodes ∧ Unfinished m (s.perform o) os

instance decidableUnfinished (m : Marker) (s : Client (Cursor σ)) :
    (os : List Operation) → Decidable (s.Unfinished m os)
  | [] => inferInstanceAs (Decidable (m ∈ s.nodes))
  | o :: os =>
    have := decidableUnfinished m (s.perform o) os
    inferInstanceAs (Decidable (_ ∧ _))

/-- A tape in good order, and markers that point at placeholders of their own. -/
structure Consistent (source : List Char) (s : Client Tape) : Prop where
  emitted_le : s.parse.emitted ≤ s.parse.accepted
  accepted_le : s.parse.accepted ≤ s.parse.position
  position_le : s.parse.position ≤ s.parse.tokens.length
  text : Token.textOf s.parse.tokens = source
  nonempty : ∀ t ∈ s.parse.tokens, t.text ≠ []
  length_offsets : s.parse.offsets.length = s.parse.tokens.length + 1
  offsets : ∀ i ≤ s.parse.tokens.length,
    s.parse.offsets[i]? = some (Token.widthOf (s.parse.tokens.take i))
  leaves : leafKinds s.parse.events = (s.parse.tokens.take s.parse.emitted).map Token.kind
  nodup : s.nodes.Nodup
  waiting : ∀ m ∈ s.nodes, s.parse.events[m.index]? = some .placeholder

variable {s : Client (Cursor σ)} {o : Operation} {os : List Operation} {m : Marker}

/-! ### One operation -/

theorem perm_eraseIdx {n : Nat} (h : s.nodes[n]? = some m) :
    s.nodes.Perm (m :: s.nodes.eraseIdx n) := by
  obtain ⟨hn, rfl⟩ := List.getElem?_eq_some_iff.mp h
  exact (List.getElem_cons_eraseIdx_perm hn).symm

/-- A split at a byte is one behind some characters, or none. -/
theorem split?_cases (c : Cursor σ) (byte : Nat) :
    (c.split? byte).getD c = c ∨ ∃ count, (c.split? byte).getD c = c.splitAfter count := by
  unfold Cursor.split?
  split
  · split
    · exact .inr ⟨_, rfl⟩
    · exact .inl rfl
  · exact .inl rfl

/-- An operation is one step by a client that puts the node in front which is to be finished. -/
theorem step_perform (h : o.Fits s.parse.tokens.length s.nodes.length) :
    ∃ ms, s.nodes.Perm ms ∧ Step False s.parse ms (s.perform o).parse (s.perform o).nodes := by
  have hstay : Step False s.parse s.nodes s.parse s.nodes := .reorder (.refl _)
  cases o with
  | bump => exact ⟨_, .refl _, .bump⟩
  | eat kind =>
    simp only [perform, eat]
    split
    · exact ⟨_, .refl _, .bump⟩
    · exact ⟨_, .refl _, hstay⟩
  | advance => exact ⟨_, .refl _, .advance⟩
  | acceptRead => exact ⟨_, .refl _, .acceptRead⟩
  | rewind index => exact ⟨_, .refl _, .rewind index h⟩
  | split byte =>
    rcases split?_cases s.parse byte with hsame | ⟨count, hsplit⟩
    · rw [perform, hsame]
      exact ⟨_, .refl _, hstay⟩
    · rw [perform, hsplit]
      exact ⟨_, .refl _, .splitAfter count⟩
  | flush kind => exact ⟨_, .refl _, .flush kind⟩
  | flushRaw => exact ⟨_, .refl _, .flushRaw⟩
  | missing kind => exact ⟨_, .refl _, .missing kind⟩
  | start => exact ⟨_, .refl _, .start⟩
  | complete n kind =>
    obtain ⟨m, hm⟩ : ∃ m, s.nodes[n]? = some m := ⟨_, List.getElem?_eq_getElem h⟩
    simp only [perform, hm]
    exact ⟨_, perm_eraseIdx hm, .complete kind⟩
  | abandon n =>
    obtain ⟨m, hm⟩ : ∃ m, s.nodes[n]? = some m := ⟨_, List.getElem?_eq_getElem h⟩
    simp only [perform, hm]
    exact ⟨_, perm_eraseIdx hm, .abandon id⟩

theorem path_perform (h : o.Fits s.parse.tokens.length s.nodes.length) :
    Path False s.parse s.nodes (s.perform o).parse (s.perform o).nodes := by
  obtain ⟨ms, hperm, hstep⟩ := step_perform h
  exact (Path.refl.tail (.reorder hperm)).tail hstep

theorem revision_perform (h : Sound False base s.nodes s.parse)
    (ho : o.Fits s.parse.tokens.length s.nodes.length) :
    Revision (s.perform o).nodes s.parse.events.toList (s.perform o).parse.events.toList := by
  obtain ⟨ms, hperm, hstep⟩ := step_perform ho
  exact hstep.revision (h.reorder hperm)

/-- An operation on the tape that shows a cursor has a result, and this shows the cursor behind the
operation. -/
theorem perform_tape (h : Sound strict base s.nodes s.parse)
    (ho : o.Fits s.parse.tokens.length s.nodes.length) :
    s.tape.perform? o = some (s.perform o).tape := by
  cases o with
  | bump => simp [perform?, perform, tape, tape_bump h.overrun]
  | eat kind => simp [perform?, perform, tape, tape_eat h.overrun]
  | advance => simp [perform?, perform, tape, tape_advance h.overrun]
  | acceptRead => simp [perform?, perform, tape, tape_acceptRead h.overrun]
  | rewind index => simp [perform?, perform, tape, tape_rewind]
  | split byte => simp [perform?, perform, tape, tape_split h.overrun]
  | flush kind => simp [perform?, perform, tape, tape_flush]
  | flushRaw => simp [perform?, perform, tape, tape_flushRaw]
  | missing kind => simp [perform?, perform, tape, tape_missing]
  | start => simp [perform?, perform, tape, tape_start]
  | complete n kind =>
    obtain ⟨m, hm⟩ : ∃ m, s.nodes[n]? = some m := ⟨_, List.getElem?_eq_getElem ho⟩
    have hwaits := ((h.flush .literal).waiting m (List.mem_of_getElem? hm)).2
    rw [Array.getElem?_toList] at hwaits
    simp [perform?, perform, tape, hm, tape_complete hwaits]
  | abandon n =>
    obtain ⟨m, hm⟩ : ∃ m, s.nodes[n]? = some m := ⟨_, List.getElem?_eq_getElem ho⟩
    have hwaits := (h.waiting m (List.mem_of_getElem? hm)).2
    rw [Array.getElem?_toList] at hwaits
    simp [perform?, perform, tape, hm, tape_abandon hwaits]

/-! ### A run of operations -/

theorem path_run (h : s.Orderly os) :
    Path False s.parse s.nodes (s.run os).parse (s.run os).nodes := by
  induction os generalizing s with
  | nil => exact .refl
  | cons o os ih => exact (path_perform h.1).trans (ih h.2)

theorem run_tape (h : Sound False base s.nodes s.parse) (ho : s.Orderly os) :
    s.tape.run? os = some (s.run os).tape := by
  induction os generalizing s with
  | nil => rfl
  | cons o os ih =>
    have hnext := ih ((path_perform ho.1).sound h) ho.2
    rw [run?, List.foldlM_cons, perform_tape h ho.1]
    exact hnext

theorem single_run (h : Sound False base s.nodes s.parse) (ho : s.Orderly os)
    (hsingle : ∀ e ∈ s.parse.events.toList, e.Single) :
    ∀ e ∈ (s.run os).parse.events.toList, e.Single := by
  induction os generalizing s with
  | nil => exact hsingle
  | cons o os ih =>
    exact ih ((path_perform ho.1).sound h) ho.2 ((revision_perform h ho.1).single hsingle)

theorem Unfinished.mem (h : s.Unfinished m os) : m ∈ s.nodes := by
  cases os with
  | nil => exact h
  | cons o os => exact h.1

/-- As long as a node is unfinished, its placeholder stays where it is. -/
theorem keptUpTo_run (h : Sound False base s.nodes s.parse) (ho : s.Orderly os)
    (hm : s.Unfinished m os) :
    KeptUpTo m.index s.parse.events.toList (s.run os).parse.events.toList := by
  induction os generalizing s with
  | nil => exact .refl _ _
  | cons o os ih =>
    have hstep := (revision_perform h ho.1).keptUpTo hm.2.mem (h.waiting m hm.1).2
    exact hstep.trans (ih ((path_perform ho.1).sound h) ho.2 hm.2)

/-- What is accepted stays accepted and stays as it is. -/
theorem accepted_run (ho : s.Orderly os) : s.parse.accepted ≤ (s.run os).parse.accepted ∧
    (s.run os).parse.tokens.take s.parse.accepted = s.parse.tokens.take s.parse.accepted := by
  have hlength (c : Cursor σ) : c.accepted = c.claimed.length := by simp [accepted, claimed]
  obtain ⟨more, hmore⟩ := Path.claimed_prefix (path_run ho)
  rw [hlength, hlength, tokens_eq, tokens_eq, ← hmore]
  simp

theorem consistent_of_sound {source : List Char} (h : Sound strict base s.nodes s.parse)
    (htext : s.parse.text = source) (hsingle : ∀ e ∈ s.parse.events.toList, e.Single) :
    s.tape.Consistent source where
  emitted_le := Nat.le_add_right _ _
  accepted_le := by
    simp only [tape, Cursor.tape, position]
    omega
  position_le := by
    simp only [tape, Cursor.tape, position, Sound.length_tokens, h.overrun, List.length_append,
      List.length_reverse]
    omega
  text := htext
  nonempty := h.nonempty
  length_offsets := Token.length_offsetsFrom 0 _
  offsets i hi := by
    rw [← Nat.zero_add (Token.widthOf _)]
    exact Token.getElem?_offsetsFrom hi
  leaves := by
    have hflushed : s.parse.tokens.take s.parse.emitted = s.parse.flushed.reverse := by
      simp [tokens, emitted]
    simp only [tape, Cursor.tape, hflushed]
    rw [leafKinds_eq_takenKinds hsingle, h.taken]
  nodup := h.nodup
  waiting m hm := (h.waiting m hm).2

/-- Whatever operations a client makes from the beginning of a source, nothing fails, and the tape
that the same is done to shows the cursor and is in good order. What the client does later keeps the
accepted tokens, and for each node that stays unfinished its placeholder and what is in front. -/
theorem run_consistent (source : List Char) (context : Context) (host : σ) (os : List Operation)
    (h : (ofSource source context host).Orderly os) :
    let s := (ofSource source context host).run os
    s.parse.fault = none ∧ run? ⟨.ofSource source, []⟩ os = some s.tape ∧
      s.tape.Consistent source ∧
      (∀ n, s.tape.parse.offsets[min (s.parse.position + n) s.parse.tokens.length]? =
        some (s.parse.nthStart n)) ∧
      ∀ later, s.Orderly later →
        (s.parse.accepted ≤ (s.run later).parse.accepted ∧
          (s.run later).parse.tokens.take s.parse.accepted =
            s.parse.tokens.take s.parse.accepted) ∧
        ∀ m, s.Unfinished m later →
          KeptUpTo m.index s.parse.events.toList (s.run later).parse.events.toList := by
  intro s
  have hunread : Sound False [] [] (Cursor.ofSource source context host) :=
    sound_unread (tokens_ofSource source context host) rfl rfl rfl rfl rfl
  have hpath := path_run h
  have hsound : Sound False [] s.nodes s.parse := hpath.sound hunread
  have htape := run_tape hunread h
  rw [tape, ofSource, tape_ofSource] at htape
  have htext : s.parse.text = source := hpath.text_eq.trans (text_ofSource source context host)
  have hsingle := single_run hunread h nofun
  exact ⟨hsound.fault, htape, consistent_of_sound hsound htext hsingle,
    offsets_nthStart hsound.overrun,
    fun later ho => ⟨accepted_run ho, fun m hm => keptUpTo_run hsound ho hm⟩⟩

/-- A token is split in front of a wide character, and the node started first is completed while the
other one, with two tokens put back behind it, stays unfinished. -/
theorem run_consistent_split :
    let source := "aé>x".toList
    let os : List Operation := [.start, .split 1, .bump, .start, .advance, .advance, .rewind 0,
      .complete 1 .markupBlock]
    let later : List Operation := [.missing .closeAngle, .bump, .flush .metacode]
    (ofSource source {} ()).Orderly os ∧ ∃ s, (ofSource source {} ()).run os = s ∧
      s.Orderly later ∧ s.Unfinished ⟨4⟩ later ∧ s.tape.parse.offsets = [0, 1, 3, 4, 5] ∧
      s.tape.Consistent source ∧
      KeptUpTo 4 s.parse.events.toList (s.run later).parse.events.toList := by
  intro source os later
  have horderly : (ofSource source {} ()).Orderly os := by decide +kernel
  have hlater : ((ofSource source {} ()).run os).Orderly later := by decide +kernel
  have hnode : ((ofSource source {} ()).run os).Unfinished ⟨4⟩ later := by decide +kernel
  obtain ⟨-, -, hconsistent, -, hkept⟩ := run_consistent source {} () os horderly
  exact ⟨horderly, _, rfl, hlater, hnode, by decide +kernel, hconsistent,
    (hkept later hlater).2 ⟨4⟩ hnode⟩

end Client

end Cursor

end TemplateMarkup
