import TemplateMarkup.Tree.Builder

/-! # Balanced events

A list of events is balanced if no node is finished before it was started and
none stays open at the end. A placeholder counts for nothing until it is given
its kind. The lemmas are the moves that a cursor makes: events are added at the
end, a placeholder becomes the start of a node that is finished at the end, and
a placeholder at the end is dropped. -/

namespace TemplateMarkup.Event

/-- The nesting depth behind one event; `none` where a node is finished that
was not started. -/
def depthStep (depth : Nat) : Event → Option Nat
  | start _ => some (depth + 1)
  | finish => if depth = 0 then none else some (depth - 1)
  | token .. | placeholder => some depth

/-- The nesting depth behind a list of events. -/
def depthAfter (depth : Nat) (events : List Event) : Option Nat := events.foldlM depthStep depth

def Balanced (events : List Event) : Prop := depthAfter 0 events = some 0

/-- The kinds of the tokens that the events take, one for each token. -/
def takenKinds (events : List Event) : List Kind :=
  events.flatMap fun
    | token kind count => List.replicate count kind
    | _ => []

@[simp] theorem takenKinds_append (a b : List Event) :
    takenKinds (a ++ b) = takenKinds a ++ takenKinds b := List.flatMap_append

theorem depthAfter_append (depth : Nat) (a b : List Event) :
    depthAfter depth (a ++ b) = (depthAfter depth a).bind fun d => depthAfter d b := by
  simp [depthAfter, List.foldlM_append]

theorem depthStep_add {depth after : Nat} {e : Event} (k : Nat)
    (h : depthStep depth e = some after) : depthStep (depth + k) e = some (after + k) := by
  cases e with
  | start kind => simp only [depthStep, Option.some.injEq] at h ⊢; omega
  | token kind count => simp only [depthStep, Option.some.injEq] at h ⊢; omega
  | placeholder => simp only [depthStep, Option.some.injEq] at h ⊢; omega
  | finish =>
    simp only [depthStep] at h ⊢
    split at h
    · cases h
    · rw [if_neg (by omega)]
      simp only [Option.some.injEq] at h ⊢
      omega

/-- What is balanced at one depth is balanced at every greater depth. -/
theorem depthAfter_add {depth after : Nat} {events : List Event} (k : Nat)
    (h : depthAfter depth events = some after) :
    depthAfter (depth + k) events = some (after + k) := by
  induction events generalizing depth with
  | nil =>
    simp only [depthAfter, List.foldlM_nil, pure, Option.some.injEq] at h ⊢
    rw [h]
  | cons e events ih =>
    simp only [depthAfter, List.foldlM_cons] at h ⊢
    obtain ⟨d, hd, hrest⟩ := Option.bind_eq_some_iff.mp h
    have he := depthStep_add k hd
    rw [he]
    exact ih hrest

namespace Balanced

theorem nil : Balanced [] := rfl

theorem append {a b : List Event} (ha : Balanced a) (hb : Balanced b) : Balanced (a ++ b) := by
  unfold Balanced at *
  rw [depthAfter_append, ha]
  exact hb

theorem singleton_token (kind : Kind) (count : Nat) : Balanced [token kind count] := rfl

theorem singleton_placeholder : Balanced [placeholder] := rfl

/-- Leaves are balanced. -/
theorem map_token (kinds : List Kind) : Balanced (kinds.map fun kind => token kind 1) := by
  induction kinds with
  | nil => exact nil
  | cons kind kinds ih => exact (singleton_token kind 1).append ih

/-- A placeholder becomes the start of a node that is finished at the end. -/
theorem fill {a b : List Event} (h : Balanced (a ++ placeholder :: b)) (kind : Kind) :
    Balanced (a ++ start kind :: b ++ [finish]) := by
  unfold Balanced at *
  rw [depthAfter_append] at h
  obtain ⟨d, ha, hb⟩ := Option.bind_eq_some_iff.mp h
  have hb' : depthAfter d b = some 0 := hb
  have hstart : depthAfter d (start kind :: b) = some 1 := depthAfter_add 1 hb'
  rw [depthAfter_append, depthAfter_append, ha, Option.bind_some, hstart]
  rfl

/-- A placeholder at the end may be dropped. -/
theorem of_append_placeholder {a : List Event} (h : Balanced (a ++ [placeholder])) :
    Balanced a := by
  unfold Balanced at *
  rw [depthAfter_append] at h
  obtain ⟨d, ha, hd⟩ := Option.bind_eq_some_iff.mp h
  rw [ha]
  exact hd

theorem node {events : List Event} (h : Balanced events) (kind : Kind) :
    Balanced (start kind :: events ++ [finish]) :=
  fill (a := []) (by rw [List.nil_append]; exact singleton_placeholder.append h) kind

end Balanced

end TemplateMarkup.Event
