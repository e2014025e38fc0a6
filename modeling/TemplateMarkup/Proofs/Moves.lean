import TemplateMarkup.Markup.Tag
import TemplateMarkup.Code.Expression
import TemplateMarkup.Proofs.View

/-! # What operations do to the tree

Between two operations that make events, tokens only change their piles, and one
of them may be split. `Moves` says so. `Emits` is an operation that makes leaves
of everything accepted, with the trees that it adds to the innermost open node. -/

namespace TemplateMarkup.Cursor

open TemplateMarkup.Tree

variable {σ : Type} {c c' : Cursor σ}

/-- Tokens that are not flushed change their piles, or a token is split. -/
structure Moves (c c' : Cursor σ) : Prop where
  flushed : c'.flushed = c.flushed
  events : c'.events = c.events
  diagnostics : c'.diagnostics = c.diagnostics
  lastNode : c'.lastNode = c.lastNode
  context : c'.context = c.context
  text : c'.text = c.text
  tokens {P : Token → Prop} : Token.Divisible P → (∀ t ∈ c.tokens, P t) → ∀ t ∈ c'.tokens, P t

namespace Moves

theorem of_tokens (htokens : c'.tokens = c.tokens) (hflushed : c'.flushed = c.flushed)
    (hevents : c'.events = c.events) (hdiagnostics : c'.diagnostics = c.diagnostics)
    (hlast : c'.lastNode = c.lastNode) (hcontext : c'.context = c.context) : Moves c c' :=
  ⟨hflushed, hevents, hdiagnostics, hlast, hcontext, text_congr htokens, by
    rw [htokens]
    exact fun _ => id⟩

theorem bump (c : Cursor σ) : Moves c c.bump := by
  refine of_tokens (tokens_bump c) ?_ ?_ ?_ ?_ (context_bump c) <;>
    unfold Cursor.bump <;> split <;> rfl

theorem advance (c : Cursor σ) : Moves c c.advance := by
  refine of_tokens (tokens_advance c) ?_ ?_ ?_ ?_ (context_advance c) <;>
    unfold Cursor.advance <;> split <;> rfl

theorem acceptRead (c : Cursor σ) : Moves c c.acceptRead := by
  refine of_tokens (tokens_acceptRead c) ?_ ?_ ?_ ?_ (context_acceptRead c) <;>
    unfold Cursor.acceptRead <;> split <;> rfl

theorem putBack (c : Cursor σ) : Moves c c.putBack :=
  of_tokens (tokens_putBack c) rfl rfl rfl rfl rfl

theorem splitAfter (c : Cursor σ) (count : Nat) : Moves c (c.splitAfter count) := by
  refine ⟨?_, ?_, ?_, ?_, ?_, text_splitAfter c count,
    fun hP h => forall_tokens_splitAfter hP h count⟩ <;>
    unfold Cursor.splitAfter <;> split <;> first | rfl | (split <;> rfl)

theorem trans {c'' : Cursor σ} (h : Moves c c') (h' : Moves c' c'') : Moves c c'' where
  flushed := h'.flushed.trans h.flushed
  events := h'.events.trans h.events
  diagnostics := h'.diagnostics.trans h.diagnostics
  lastNode := h'.lastNode.trans h.lastNode
  context := h'.context.trans h.context
  text := h'.text.trans h.text
  tokens hP hc := h'.tokens hP (h.tokens hP hc)

theorem shows {fs : List (List Tree)} (h : Moves c c') (hs : Shows c fs) : Shows c' fs :=
  ⟨by rw [h.events, hs.events], by rw [h.flushed, hs.texts], h.tokens Token.divisible_sane hs.sane⟩

theorem refl (c : Cursor σ) : Moves c c := of_tokens rfl rfl rfl rfl rfl rfl

theorem bumpN (c : Cursor σ) (n : Nat) : Moves c (c.bumpN n) := by
  induction n generalizing c with
  | zero => exact refl c
  | succ n ih => exact (bump c).trans (ih c.bump)

theorem bumpWhile (c : Cursor σ) (test : Token → Bool) : Moves c (c.bumpWhile test) := bumpN c _

theorem eat (c : Cursor σ) (kind : Kind) : Moves c (c.eat kind).2 := by
  unfold Cursor.eat
  split
  · exact bump c
  · exact refl c

theorem fail (c : Cursor σ) (fault : Fault) : Moves c (c.fail fault) :=
  of_tokens rfl rfl rfl rfl rfl rfl

theorem acceptKeeps (c : Cursor σ) : AcceptKeeps (Moves c) where
  bump h := h.trans (bump _)
  front count h := (h.trans (splitAfter _ count)).trans (bump _)

theorem expressionBody (c : Cursor σ) : Moves c c.expressionBody :=
  (acceptKeeps c).expressionBody (fun d h => h.trans (fail d _)) (refl c)

theorem eatName (c : Cursor σ) : Moves c c.eatName := bumpWhile c _

theorem acceptUntil (c : Cursor σ) (kinds : List Kind) : Moves c (c.acceptUntil kinds) :=
  bumpWhile c _

theorem recoverTextTag (c : Cursor σ) : Moves c c.recoverTextTag :=
  (acceptUntil c _).trans (eat _ _)

end Moves

/-- Everything accepted becomes trees in the innermost node, with what else is added. -/
structure Emits (new : List Tree) (c c' : Cursor σ) : Prop where
  flushed : c'.flushed = c.pending ++ c.flushed
  pending : c'.pending = []
  held : c'.held = c.held
  ahead : c'.ahead = c.ahead
  diagnostics : c'.diagnostics = c.diagnostics
  context : c'.context = c.context
  shows : ∀ {f fs}, Shows c (f :: fs) → Shows c' ((f ++ new) :: fs)

namespace Emits

theorem flush (c : Cursor σ) (kind : Kind) :
    Emits (flushTrees kind c.pending) c (c.flush kind) where
  flushed := flushed_flush c kind
  pending := pending_flush c kind
  held := held_flush c kind
  ahead := ahead_flush c kind
  diagnostics := diagnostics_flush c kind
  context := context_flush c kind
  shows h := h.flush kind

theorem flushRaw (c : Cursor σ) : Emits (c.pending.reverse.map Tree.ofToken) c c.flushRaw where
  flushed := rfl
  pending := rfl
  held := rfl
  ahead := rfl
  diagnostics := rfl
  context := rfl
  shows h := h.add _ (by rw [events_flushRaw, Tree.eventsOf_map_ofToken h.pending_sane]) rfl
    (tokens_flushRaw c) (Tree.leafTextsOf_map_ofToken h.pending_sane)

theorem missing (c : Cursor σ) (kind : Kind) :
    Emits (flushTrees .literal c.pending ++ [.token kind []]) c (c.missing kind) where
  flushed := flushed_flush c _
  pending := pending_flush c _
  held := held_flush c _
  ahead := ahead_flush c _
  diagnostics := diagnostics_flush c _
  context := context_flush c _
  shows h := by
    have hflush := h.flush .literal
    rw [← List.append_assoc]
    refine hflush.add (d := c.missing kind) [.token kind []] ?_ ?_ rfl ?_
    · simp [Cursor.missing, Tree.eventsOf, Tree.events]
    · simp [Cursor.missing]
    · simp [Tree.leafTextsOf, Tree.leafTexts]

theorem tokens_eq {new : List Tree} (h : Emits new c c') : c'.tokens = c.tokens := by
  simp [tokens, h.flushed, h.pending, h.held, h.ahead]

end Emits

end TemplateMarkup.Cursor
