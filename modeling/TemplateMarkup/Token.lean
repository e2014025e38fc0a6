import TemplateMarkup.Kind
import TemplateMarkup.Text.Width

/-!
Tokens: pieces of a template's source with a kind.

Tokens drop nothing. The texts of a source's tokens, put together, are the source.
-/

namespace TemplateMarkup

structure Token where
  kind : Kind
  text : List Char
  deriving DecidableEq, Repr, Inhabited

namespace Token

/-- The number of bytes the token takes in the source. -/
def width (t : Token) : Nat := Text.width t.text

/-- The text that the tokens spell together. -/
def textOf (ts : List Token) : List Char := ts.flatMap Token.text

/-- The number of bytes the tokens take together. -/
def widthOf : List Token → Nat
  | [] => 0
  | t :: ts => t.width + widthOf ts

/-- The kind of the `n`-th token of a run, and the end of input past the run. -/
def kindAt (ts : List Token) (n : Nat) : Kind :=
  match ts[n]? with
  | some t => t.kind
  | none => .endOfInput

/-- The text of the `n`-th token of a run, empty past the run. -/
def textAt (ts : List Token) (n : Nat) : List Char :=
  match ts[n]? with
  | some t => t.text
  | none => []

@[simp] theorem textOf_nil : textOf [] = [] := rfl

@[simp] theorem textOf_cons (t : Token) (ts : List Token) :
    textOf (t :: ts) = t.text ++ textOf ts := rfl

theorem widthOf_eq (ts : List Token) : widthOf ts = Text.width (textOf ts) := by
  induction ts with
  | nil => rfl
  | cons t ts ih => simpa [widthOf, width] using ih

@[simp] theorem textOf_append (a b : List Token) : textOf (a ++ b) = textOf a ++ textOf b := by
  simp [textOf]

end Token

end TemplateMarkup
