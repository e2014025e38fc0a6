import TemplateMarkup.Proofs.Balance

/-! # Building a tree from balanced events

Balanced events that take no more tokens than there are always build. They add
trees to the innermost node that was open before, leave the nodes around it
alone, and the text of what they add is the text of the tokens they take. -/

namespace TemplateMarkup.Tree

open Event

/-- The text in nodes that are started and not finished, innermost first. -/
def Builder.openText (frames : List (Kind × List Tree)) : List Char :=
  frames.reverse.flatMap fun f => textOf f.2.reverse

namespace Builder

@[simp] theorem openText_nil : openText [] = [] := rfl

@[simp] theorem openText_cons (f : Kind × List Tree) (frames : List (Kind × List Tree)) :
    openText (f :: frames) = openText frames ++ textOf f.2.reverse := by
  simp [openText]

/-- The state that events reach from `b` when they close what they open: they
take `count` tokens, put `added` (latest first) into the innermost of the nodes
`outer` and leave the nodes `frames` open above it. -/
structure Reached (b after : Builder) (kind : Kind) (children : List Tree)
    (outer frames : List (Kind × List Tree)) (added : List Tree) (count : Nat) : Prop where
  unread : after.unread = b.unread.drop count
  roots : after.roots = b.roots
  frames_eq : after.frames = frames ++ (kind, added ++ children) :: outer

theorem step_token {b : Builder} {kind : Kind} {count : Nat} (h : count ≤ b.unread.length) :
    b.step (.token kind count) = some ({ b with unread := b.unread.drop count }.add
      (.token kind (Token.textOf (b.unread.take count)))) := by
  simp only [step]
  rw [if_pos (List.length_take_of_le h)]

/-- A tree that is added under the open nodes `inner` goes into the innermost of them, or, if there
is none, to the children of the node around them. -/
theorem add_below {b : Builder} {kind : Kind} {children : List Tree}
    {outer inner : List (Kind × List Tree)} (hf : b.frames = inner ++ (kind, children) :: outer)
    (t : Tree) : ∃ inner' new, (b.add t).frames = inner' ++ (kind, new ++ children) :: outer ∧
      (b.add t).unread = b.unread ∧ (b.add t).roots = b.roots ∧ inner'.length = inner.length ∧
      textOf new.reverse ++ openText inner' = openText inner ++ t.text := by
  cases inner with
  | nil => exact ⟨[], [t], by simp [add, hf, textOf]⟩
  | cons f rest => exact ⟨(f.1, t :: f.2) :: rest, [], by simp [add, hf, textOf]⟩

theorem step_finish {b : Builder} {kind k : Kind} {children added : List Tree}
    {outer rest : List (Kind × List Tree)}
    (hf : b.frames = (k, added) :: rest ++ (kind, children) :: outer) :
    b.step .finish =
      some ({ b with frames := rest ++ (kind, children) :: outer }.add (.node k added.reverse)) := by
  simp [step, hf]

/-- What a run of events builds under the open nodes `inner`: it leaves `after` of its own nodes
open, and adds the text of the tokens that it takes to the text under `inner`. -/
def Builds (events : List Event) (b : Builder) (kind : Kind) (children : List Tree)
    (outer inner : List (Kind × List Tree)) (after : Nat) : Prop :=
  ∃ c inner' added, events.foldlM step b = some c ∧ inner'.length = after ∧
    Reached b c kind children outer inner' added (takenKinds events).length ∧
    textOf added.reverse ++ openText inner' =
      openText inner ++ Token.textOf (b.unread.take (takenKinds events).length)

/-- A step that takes `count` tokens and adds a tree of their text, in front of a run that builds. -/
theorem Builds.add {b b' : Builder} {e : Event} {events : List Event} {kind : Kind}
    {children : List Tree} {outer inner inner' : List (Kind × List Tree)} {after : Nat}
    (new : List Tree) (count : Nat) (hb : b.step e = some b') (hunread : b'.unread = b.unread.drop count)
    (hroots : b'.roots = b.roots)
    (hcount : (takenKinds (e :: events)).length = count + (takenKinds events).length)
    (htext : textOf new.reverse ++ openText inner' =
      openText inner ++ Token.textOf (b.unread.take count))
    (h : Builds events b' kind (new ++ children) outer inner' after) :
    Builds (e :: events) b kind children outer inner after := by
  obtain ⟨c, inner₁, added, hrun, hlength, ⟨hu, hr, hf⟩, hadded⟩ := h
  refine ⟨c, inner₁, added ++ new, ?_, hlength, ⟨?_, hr.trans hroots, ?_⟩, ?_⟩
  · rw [List.foldlM_cons, hb]
    exact hrun
  · rw [hu, hunread, List.drop_drop, hcount]
  · rw [hf, List.append_assoc]
  · rw [hunread] at hadded
    rw [List.reverse_append, textOf_append, List.append_assoc, hadded, ← List.append_assoc, htext,
      hcount, List.take_add, Token.textOf_append, List.append_assoc]

theorem foldlM_step {events : List Event} {depth after : Nat} {b : Builder} {kind : Kind}
    (children : List Tree) {outer : List (Kind × List Tree)} (inner : List (Kind × List Tree))
    (hd : depthAfter depth events = some after) (hi : inner.length = depth)
    (hf : b.frames = inner ++ (kind, children) :: outer)
    (hl : (takenKinds events).length ≤ b.unread.length) :
    Builds events b kind children outer inner after := by
  induction events generalizing depth b children inner with
  | nil =>
    have he : depth = after := by simpa [depthAfter] using hd
    exact ⟨b, inner, [], rfl, hi.trans he, ⟨rfl, rfl, hf⟩, by simp [takenKinds, textOf]⟩
  | cons e events ih =>
    rw [depthAfter, List.foldlM_cons] at hd
    obtain ⟨d, hstep, hrest⟩ := Option.bind_eq_some_iff.mp hd
    cases e with
    | start k =>
      have hk : depth + 1 = d := by simpa [depthStep] using hstep
      have hbuilds := ih (b := { b with frames := (k, []) :: b.frames }) children
        ((k, []) :: inner) hrest (by simp [hi, hk]) (congrArg ((k, []) :: ·) hf) hl
      exact hbuilds.add [] 0 rfl rfl rfl (Nat.zero_add _).symm (by simp [textOf])
    | placeholder =>
      obtain rfl : depth = d := by simpa [depthStep] using hstep
      exact (ih children inner hrest hi hf hl).add [] 0 rfl rfl rfl (Nat.zero_add _).symm
        (by simp [textOf])
    | finish =>
      obtain ⟨⟨k, inside⟩, rest, rfl⟩ : ∃ f rest, inner = f :: rest := by
        refine List.exists_cons_of_ne_nil fun hnil => ?_
        rw [← hi, hnil] at hstep
        cases hstep
      have hk : rest.length = d := by
        rw [← hi] at hstep
        simpa [depthStep] using hstep
      -- the finished node joins the next node outwards
      obtain ⟨inner', new, hf', hunread, hroots, hlength, htext⟩ :=
        add_below (b := { b with frames := rest ++ (kind, children) :: outer }) rfl
          (.node k inside.reverse)
      have hbuilds := ih (new ++ children) inner' hrest (hlength.trans hk) hf'
        (by rw [hunread]; exact hl)
      refine hbuilds.add new 0 (step_finish hf) hunread hroots (Nat.zero_add _).symm ?_
      rw [htext, openText_cons, Tree.text, List.take_zero, Token.textOf_nil, List.append_nil]
    | token k count =>
      obtain rfl : depth = d := by simpa [depthStep] using hstep
      have htaken : (takenKinds (.token k count :: events)).length =
          count + (takenKinds events).length := by simp [takenKinds]
      rw [htaken] at hl
      obtain ⟨inner', new, hf', hunread, hroots, hlength, htext⟩ :=
        add_below (b := { b with unread := b.unread.drop count }) hf
          (.token k (Token.textOf (b.unread.take count)))
      have hleft : (takenKinds events).length ≤ (b.unread.drop count).length := by
        rw [List.length_drop]
        omega
      have hbuilds := ih (new ++ children) inner' hrest (hlength.trans hi) hf'
        (by rw [hunread]; exact hleft)
      exact hbuilds.add new count (step_token (by omega)) hunread hroots htaken htext

/-- Balanced events between a start and its finish build one node. -/
theorem foldlM_step_node {b : Builder} {kind k : Kind} {children : List Tree}
    {outer : List (Kind × List Tree)} {events : List Event} (hb : Balanced events)
    (hf : b.frames = (kind, children) :: outer)
    (hl : (takenKinds events).length ≤ b.unread.length) :
    ∃ ts, (Event.start k :: events ++ [Event.finish]).foldlM step b = some { b with
        unread := b.unread.drop (takenKinds events).length
        frames := (kind, .node k ts :: children) :: outer } ∧
      textOf ts = Token.textOf (b.unread.take (takenKinds events).length) := by
  obtain ⟨c, inner, added, hrun, hlen, ⟨hu, hr, hfr⟩, htext⟩ :=
    foldlM_step (b := { b with frames := (k, []) :: b.frames }) [] [] hb rfl
      (congrArg ((k, []) :: ·) hf) hl
  obtain rfl := List.length_eq_zero_iff.mp hlen
  refine ⟨added.reverse, ?_, by simpa using htext⟩
  rw [List.foldlM_append, List.foldlM_cons]
  simp only [step, Option.bind_eq_bind, Option.bind_some, hrun, List.foldlM_cons,
    List.foldlM_nil, hfr, List.nil_append, List.append_nil]
  simp [add, hu, hr]

end Builder

/-- One node's balanced events over all the tokens build that node, whatever
the first of its children are built from. -/
theorem ofEvents?_node {tokens : List Token} {kind : Kind} {events : List Event}
    (children : List Tree)
    (h : events.foldlM Builder.step ⟨tokens, [(kind, [])], []⟩ =
      some ⟨[], [(kind, children)], []⟩) :
    ofEvents? tokens (.start kind :: events ++ [Event.finish]) = some (.node kind children.reverse) := by
  rw [ofEvents?, List.foldlM_append, List.foldlM_cons]
  simp only [Builder.step, Option.bind_eq_bind, Option.bind_some, h]
  rfl

end TemplateMarkup.Tree
