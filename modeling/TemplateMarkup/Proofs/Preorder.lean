import TemplateMarkup.Proofs.Balance

/-! # Trees written out in preorder

A tree written out in preorder is the start of each node, what stands in it, and its
finish. Events that are nested inside one node build the tree that they write out: no
other tree is written out as these events over the same tokens, and if no token is empty
the tree says which events these are. -/

namespace TemplateMarkup

namespace Event

/-- The events of neighbouring leaves and nodes. -/
inductive Nested : List Event → Prop
  | nil : Nested []
  | token {kind : Kind} {count : Nat} {rest : List Event} : Nested rest →
      Nested (token kind count :: rest)
  | node {kind : Kind} {inner rest : List Event} : Nested inner → Nested rest →
      Nested (start kind :: inner ++ finish :: rest)

/-- Between the start and the finish of one node, every other node is finished. Placeholders count
for nothing. -/
def OneNode (events : List Event) : Prop :=
  ∃ kind inner, events.filter (· ≠ placeholder) = start kind :: inner ++ [finish] ∧ Balanced inner

/-- The events behind the starts of so many nodes: what is left of each, and what follows the
outermost. -/
def Closes : Nat → List Event → Prop
  | 0, events => Nested events
  | depth + 1, events =>
    ∃ inner rest, events = inner ++ finish :: rest ∧ Nested inner ∧ Closes depth rest

variable {events inner : List Event} {kind : Kind} {count depth : Nat}

namespace Closes

theorem token (h : Closes depth events) : Closes depth (token kind count :: events) := by
  cases depth with
  | zero => exact Nested.token h
  | succ depth =>
    obtain ⟨inner, rest, rfl, hinner, hrest⟩ := h
    exact ⟨_, rest, rfl, .token hinner, hrest⟩

theorem start (h : Closes (depth + 1) events) : Closes depth (start kind :: events) := by
  obtain ⟨inner, rest, rfl, hinner, hrest⟩ := h
  cases depth with
  | zero => exact Nested.node hinner hrest
  | succ depth =>
    obtain ⟨next, rest, rfl, hnext, hrest⟩ := hrest
    exact ⟨.start kind :: inner ++ .finish :: next, rest, by simp, .node hinner hnext, hrest⟩

end Closes

/-- Where the depth comes down to zero and no further, each node has its finish. -/
theorem closes_of_depthAfter (h : depthAfter depth events = some 0) (hp : placeholder ∉ events) :
    Closes depth events := by
  induction events generalizing depth with
  | nil =>
    obtain rfl : depth = 0 := by simpa [depthAfter] using h
    exact Nested.nil
  | cons e events ih =>
    simp only [depthAfter, List.foldlM_cons] at h
    obtain ⟨after, hstep, hrest⟩ := Option.bind_eq_some_iff.mp h
    have hcloses := ih hrest fun hmem => hp (List.mem_cons_of_mem e hmem)
    cases e with
    | start kind =>
      obtain rfl : depth + 1 = after := by simpa [depthStep] using hstep
      exact hcloses.start
    | token kind count =>
      obtain rfl : depth = after := by simpa [depthStep] using hstep
      exact hcloses.token
    | finish =>
      cases depth with
      | zero => simp [depthStep] at hstep
      | succ depth =>
        obtain rfl : depth = after := by simpa [depthStep] using hstep
        exact ⟨[], events, rfl, .nil, hcloses⟩
    | placeholder => exact absurd (List.mem_cons_self ..) hp

theorem takenKinds_filter (events : List Event) :
    takenKinds (events.filter (· ≠ placeholder)) = takenKinds events := by
  induction events with
  | nil => rfl
  | cons e events ih => cases e <;> simp_all [takenKinds]

/-- The events of one node, without placeholders. -/
theorem OneNode.nested (h : OneNode events) :
    ∃ kind inner, events.filter (· ≠ placeholder) = start kind :: inner ++ [finish] ∧
      Nested inner := by
  obtain ⟨kind, inner, hfilter, hbalanced⟩ := h
  have hp : placeholder ∉ inner := by
    intro hmem
    have hin : placeholder ∈ events.filter (· ≠ placeholder) := by
      rw [hfilter]
      simp [hmem]
    simp at hin
  have hnested : Closes 0 inner := closes_of_depthAfter hbalanced hp
  exact ⟨kind, inner, hfilter, hnested⟩

end Event

namespace Tree

/-- Neighbouring trees written out in preorder, and the tokens that make up the texts of their
leaves. A leaf is one event that takes the next of these tokens. -/
inductive Writes : List Tree → List Event → List Token → Prop
  | nil : Writes [] [] []
  | token {kind : Kind} {taken used : List Token} {ts : List Tree} {events : List Event} :
      Writes ts events used → Writes (.token kind (Token.textOf taken) :: ts)
        (.token kind taken.length :: events) (taken ++ used)
  | node {kind : Kind} {children ts : List Tree} {inner events : List Event}
      {within used : List Token} : Writes children inner within → Writes ts events used →
      Writes (.node kind children :: ts) (.start kind :: inner ++ .finish :: events)
        (within ++ used)

namespace Writes

variable {t : Tree} {ts : List Tree} {events inner other : List Event}
  {tokens used rest : List Token} {kind : Kind}

/-- The events that trees are written out as add these trees to the innermost open node. -/
theorem foldlM_step (h : Writes ts events used) {b : Builder} {children : List Tree}
    {outer : List (Kind × List Tree)} (hu : b.unread = used ++ rest)
    (hf : b.frames = (kind, children) :: outer) : events.foldlM Builder.step b =
      some { b with unread := rest, frames := (kind, ts.reverse ++ children) :: outer } := by
  induction h generalizing b kind children outer rest with
  | nil =>
    have hrest : b.unread = rest := hu
    rw [← hrest, List.reverse_nil, List.nil_append, ← hf]
    rfl
  | @token k taken used ts events _ ih =>
    have hunread : b.unread = taken ++ (used ++ rest) := by rw [hu, List.append_assoc]
    have hleaf := ih (b := { b with
      unread := used ++ rest
      frames := (kind, .token k (Token.textOf taken) :: children) :: outer }) rfl rfl
    simpa [Builder.step, Builder.add, hunread, hf] using hleaf
  | @node k inside ts inner events within used _ _ ihinner ihrest =>
    have hunread : b.unread = within ++ (used ++ rest) := by rw [hu, List.append_assoc]
    have hinner := ihinner (b := { b with frames := (k, []) :: b.frames }) hunread rfl
    have hnode := ihrest (b := { b with
      unread := used ++ rest
      frames := (kind, .node k inside :: children) :: outer }) rfl rfl
    simp only [List.foldlM_append, List.foldlM_cons, Builder.step, Option.bind_eq_bind,
      Option.bind_some, hinner]
    simpa [Builder.add, hf] using hnode

/-- Nested events write out some trees, whatever tokens they take. -/
theorem exists_of_nested (h : Event.Nested events)
    (hcount : (Event.takenKinds events).length ≤ tokens.length) :
    ∃ ts, Writes ts events (tokens.take (Event.takenKinds events).length) := by
  induction h generalizing tokens with
  | nil => exact ⟨[], .nil⟩
  | @token kind count events _ ih =>
    have htaken : (Event.takenKinds (.token kind count :: events)).length =
        count + (Event.takenKinds events).length := by simp [Event.takenKinds]
    rw [htaken] at hcount ⊢
    have hrest : (Event.takenKinds events).length ≤ (tokens.drop count).length := by simp; omega
    obtain ⟨ts, hts⟩ := ih hrest
    have hleaf : Writes (.token kind (Token.textOf (tokens.take count)) :: ts)
        (.token kind (tokens.take count).length :: events) _ := hts.token
    rw [List.length_take_of_le (by omega), ← List.take_add] at hleaf
    exact ⟨_, hleaf⟩
  | @node kind inner events _ _ ihinner ihrest =>
    have htaken : (Event.takenKinds (.start kind :: inner ++ .finish :: events)).length =
        (Event.takenKinds inner).length + (Event.takenKinds events).length := by
      simp [Event.takenKinds]
    rw [htaken] at hcount ⊢
    have hwithin : (Event.takenKinds inner).length ≤ tokens.length := by omega
    have hrest : (Event.takenKinds events).length ≤
        (tokens.drop (Event.takenKinds inner).length).length := by simp; omega
    obtain ⟨children, hchildren⟩ := ihinner hwithin
    obtain ⟨ts, hts⟩ := ihrest hrest
    have hnode : Writes (.node kind children :: ts) (.start kind :: inner ++ .finish :: events) _ :=
      hchildren.node hts
    rw [← List.take_add] at hnode
    exact ⟨_, hnode⟩

/-- A text that is put together from tokens with text says how many they are. -/
theorem taken_unique {a b c d : List Token} (htokens : a ++ c = b ++ d)
    (htext : Token.textOf a = Token.textOf b) (hne : ∀ t ∈ a ++ c, t.text ≠ []) : a = b := by
  induction a generalizing b with
  | nil =>
    cases b with
    | nil => rfl
    | cons t b =>
      have ht : t.text ≠ [] := hne t (by rw [htokens]; simp)
      simp [ht] at htext
  | cons t a ih =>
    cases b with
    | nil =>
      have ht : t.text ≠ [] := hne t (by simp)
      simp [ht] at htext
    | cons u b =>
      simp only [List.cons_append, List.cons.injEq] at htokens
      obtain ⟨rfl, htokens⟩ := htokens
      have hrest : Token.textOf a = Token.textOf b := by simpa using htext
      rw [ih htokens hrest fun v hv => hne v (List.mem_cons_of_mem t hv)]

/-- Over tokens with text there is one way to write trees out, and it takes as many tokens. -/
theorem unique (h : Writes ts events used) {others : List Token} {left : List Token}
    (h' : Writes ts other others) (hused : used ++ rest = others ++ left)
    (hne : ∀ t ∈ used ++ rest, t.text ≠ []) : events = other ∧ used = others := by
  induction h generalizing other others rest left with
  | nil =>
    cases h'
    exact ⟨rfl, rfl⟩
  | @token kind taken used ts events _ ih =>
    generalize htext : Token.textOf taken = text at h'
    cases h' with
    | @token _ taken' used' _ events' h' =>
      simp only [List.append_assoc] at hused hne
      obtain rfl := taken_unique hused htext hne
      obtain ⟨rfl, rfl⟩ := ih h' (List.append_cancel_left hused)
        fun t ht => hne t (List.mem_append_right _ ht)
      exact ⟨rfl, rfl⟩
  | @node kind children ts inner events within used _ _ ihinner ihrest =>
    cases h' with
    | @node _ _ _ inner' events' within' used' hinner' hrest' =>
      simp only [List.append_assoc] at hused hne
      obtain ⟨rfl, rfl⟩ := ihinner hinner' hused hne
      obtain ⟨rfl, rfl⟩ := ihrest hrest' (List.append_cancel_left hused)
        fun t ht => hne t (List.mem_append_right _ ht)
      exact ⟨rfl, rfl⟩

end Writes

/-- Placeholders have no effect. -/
theorem foldlM_step_filter (events : List Event) (b : Builder) :
    (events.filter (· ≠ .placeholder)).foldlM Builder.step b = events.foldlM Builder.step b := by
  induction events generalizing b with
  | nil => rfl
  | cons e events ih => cases e <;> simp_all [Builder.step]

/-- A tree that is written out as a node's events is that node. -/
theorem Writes.exists_node {t : Tree} {kind : Kind} {inner : List Event} {used : List Token}
    (h : Writes [t] (.start kind :: inner ++ [.finish]) used) :
    ∃ children, t = .node kind children ∧ Writes children inner used := by
  generalize hevents : Event.start kind :: inner ++ [.finish] = events at h
  cases h with
  | token => cases hevents
  | @node k children _ inner' events' within _ hinner hrest =>
    cases hrest
    simp only [List.cons_append, List.cons.injEq, Event.start.injEq] at hevents
    obtain ⟨rfl, hinner'⟩ := hevents
    obtain rfl := List.append_cancel_right hinner'
    exact ⟨children, rfl, by rwa [List.append_nil]⟩

/-- The events that a tree is written out as build that tree. -/
theorem ofEvents?_of_writes {t : Tree} {tokens used rest : List Token} {events inner : List Event}
    {kind : Kind} (hevents : events.filter (· ≠ .placeholder) = .start kind :: inner ++ [.finish])
    (h : Writes [t] (.start kind :: inner ++ [.finish]) used) (htokens : tokens = used ++ rest) :
    ofEvents? tokens events = some t := by
  obtain ⟨children, rfl, hchildren⟩ := h.exists_node
  have hrun := hchildren.foldlM_step (b := ⟨tokens, [(kind, [])], []⟩) htokens rfl
  rw [ofEvents?, ← foldlM_step_filter, hevents, List.foldlM_append, List.foldlM_cons]
  simp only [Builder.step, Option.bind_eq_bind, Option.bind_some, hrun]
  simp [Builder.step, Builder.add, Builder.tree?, Builder.topLevel]

/-- Events nested inside one node that take no more tokens than there are build one tree. Written out
in preorder it is these events without placeholders, each leaf has the text of the next tokens, as
many as its event takes, and it is the only such tree. If no token is empty, the tree is written out
in no other way. -/
theorem oneNode_builds {tokens : List Token} {events : List Event} (h : Event.OneNode events)
    (hcount : (Event.takenKinds events).length ≤ tokens.length) :
    let written := events.filter (· ≠ .placeholder)
    let used := tokens.take (Event.takenKinds events).length
    ∃ t, ofEvents? tokens events = some t ∧ Writes [t] written used ∧
      (∀ u, Writes [u] written used → u = t) ∧
      ((∀ token ∈ tokens, token.text ≠ []) → ∀ other, Writes [t] other used → other = written) := by
  intro written used
  obtain ⟨kind, inner, hwritten, hinner⟩ := h.nested
  have htaken : Event.takenKinds events = Event.takenKinds inner := by
    rw [← Event.takenKinds_filter, hwritten]
    simp [Event.takenKinds]
  have htokens : tokens = used ++ tokens.drop (Event.takenKinds events).length :=
    (List.take_append_drop _ _).symm
  have hinnercount : (Event.takenKinds inner).length ≤ tokens.length := by rwa [← htaken]
  obtain ⟨children, hchildren⟩ := Writes.exists_of_nested hinner hinnercount
  rw [← htaken] at hchildren
  have hnode : Writes [.node kind children] written used := by
    have hroot : Writes [.node kind children] (.start kind :: inner ++ [.finish]) (used ++ []) :=
      hchildren.node .nil
    rw [List.append_nil] at hroot
    rw [show written = _ from hwritten]
    exact hroot
  have hbuilds {u : Tree} (hu : Writes [u] written used) : ofEvents? tokens events = some u :=
    ofEvents?_of_writes hwritten (by rwa [← hwritten]) htokens
  refine ⟨.node kind children, hbuilds hnode, hnode, fun u hu => ?_, fun htext other hother => ?_⟩
  · exact Option.some.inj ((hbuilds hu).symm.trans (hbuilds hnode))
  · have htext' : ∀ t ∈ used ++ [], t.text ≠ [] := fun t ht =>
      htext t (List.mem_of_mem_take (by simpa using ht))
    exact ((hnode.unique hother rfl htext').1).symm

/-- A tag whose `>` is missing, with a leaf of two tokens, and with placeholders inside and outside.
One token is left over. -/
theorem oneNode_builds_missing :
    let tokens : List Token := [⟨.openAngle, ['<']⟩, ⟨.text, ['p']⟩, ⟨.whitespace, [' ']⟩,
      ⟨.text, ['x']⟩]
    let events : List Event := [.placeholder, .start .root, .token .openAngle 1, .placeholder,
      .start .tagBlock, .token .text 2, .token .closeAngle 0, .finish, .placeholder, .finish]
    let written : List Event := [.start .root, .token .openAngle 1, .start .tagBlock,
      .token .text 2, .token .closeAngle 0, .finish, .finish]
    let tree : Tree := .node .root [.token .openAngle ['<'],
      .node .tagBlock [.token .text ['p', ' '], .token .closeAngle []]]
    Event.OneNode events ∧ (Event.takenKinds events).length ≤ tokens.length ∧
      ofEvents? tokens events = some tree ∧ Writes [tree] written (tokens.take 3) ∧
      ∀ other, Writes [tree] other (tokens.take 3) → other = written := by
  intro tokens events written tree
  have hnode : Event.OneNode events := ⟨.root, [.token .openAngle 1, .start .tagBlock,
    .token .text 2, .token .closeAngle 0, .finish], rfl, rfl⟩
  have hcount : (Event.takenKinds events).length ≤ tokens.length := by decide
  have htext : ∀ t ∈ tokens, t.text ≠ [] := by decide
  obtain ⟨t, ht, hwrites, -, hother⟩ := oneNode_builds hnode hcount
  have htree : ofEvents? tokens events = some tree := rfl
  obtain rfl : t = tree := Option.some.inj (ht.symm.trans htree)
  exact ⟨hnode, hcount, htree, hwrites, hother htext⟩

end Tree

end TemplateMarkup
