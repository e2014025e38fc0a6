import TemplateMarkup.Code
import TemplateMarkup.Text.Letter

/-!
# Implicit expressions

The plainest embedded code: `@name`, `@name.member(args)[index]`, `@(expression)` and `@{ block }`.
Brackets are balanced by counting, whatever stands between them; one that is never closed takes the
rest of the source. A token that reaches beyond the expression is split at its end.
-/

namespace TemplateMarkup

/-- A bracket and its counterpart. -/
structure Brackets where
  opening : Char
  closing : Char

namespace Brackets

def round : Brackets := ⟨'(', ')'⟩

def square : Brackets := ⟨'[', ']'⟩

def curly : Brackets := ⟨'\x7b', '\x7d'⟩

/-- Where a group ends within a text. -/
inductive Closing where
  /-- The group's last bracket is the last of the first `count` characters. -/
  | after (count : Nat)
  /-- The text is over with `depth` groups open. -/
  | unclosed (depth : Nat)
  deriving DecidableEq, Repr

/-- Looks through a text for the bracket that closes the outermost of `depth` open groups. -/
def findClosing (b : Brackets) (depth : Nat) : List Char → Closing
  | [] => .unclosed depth
  | c :: rest =>
    let inRest (depth : Nat) : Closing :=
      match findClosing b depth rest with
      | .after count => .after (count + 1)
      | .unclosed depth => .unclosed depth
    if c = b.opening then inRest (depth + 1)
    else if c = b.closing then if depth ≤ 1 then .after 1 else inRest (depth - 1)
    else inRest depth

end Brackets

/-- A character that a name may begin with. -/
def startsName (c : Char) : Bool := Text.isAlphabetic c || c == '_'

/-- A character that a name, or a chain of names with dots between them, may go on with. -/
def continuesName (c : Char) : Bool :=
  Text.isAlphabetic c || Text.isNumeric c || c == '_' || c == '.'

/-- How many characters of the text form a chain of names; dots at its end do not belong to it. -/
def nameLength (text : List Char) : Nat :=
  ((text.takeWhile continuesName).reverse.dropWhile (· == '.')).length

namespace Cursor

variable {σ : Type}

/-- Whether the next token is text that starts with the character. -/
def atText (c : Cursor σ) (ch : Char) : Bool :=
  c.at? .text && c.currentText.head? == some ch

/-- Accepts tokens up to the bracket that closes the group at the cursor. The list is the tokens
ahead, and `depth` counts the groups open so far. -/
def balancedFrom (b : Brackets) (depth : Nat) : List Token → Cursor σ → Cursor σ
  | [], c => c
  | t :: rest, c =>
    match b.findClosing depth t.text with
    | .after count => (c.splitAfter count).bump
    | .unclosed depth => balancedFrom b depth rest c.bump

/-- Accepts the group of brackets at the cursor. -/
def balanced (c : Cursor σ) (b : Brackets) : Cursor σ := balancedFrom b 0 c.ahead c

/-- Accepts the groups of arguments and indices that follow a name directly. The number bounds how
many there can be. -/
def groups : Nat → Cursor σ → Cursor σ
  | 0, c => c.fail .stalled
  | bound + 1, c =>
    if c.atText '(' then groups bound (c.balanced .round)
    else if c.at? .openBracket then groups bound (c.balanced .square)
    else c

/-- Accepts what follows an `@`: a group, or a name with what belongs to it, or nothing. -/
def expressionBody (c : Cursor σ) : Cursor σ :=
  if c.atText '(' then c.balanced .round
  else if c.atText '\x7b' then c.balanced .curly
  else if c.at? .text && c.currentText.head?.any startsName then
    let c := (c.splitAfter (nameLength c.currentText)).bump
    c.groups (c.unclaimed + 1)
  else c

/-- Accepts an implicit expression and the whitespace before it as one node of code. Nothing happens
if no `@` comes next. -/
def implicitExpression (c : Cursor σ) : Cursor σ :=
  let blanks := c.runLength (·.kind == .whitespace) 0
  if c.nth blanks = .transition then
    let (m, c) := c.start
    ((c.bumpN (blanks + 1)).expressionBody.flushRaw).complete m .codeBlock
  else c

/-! ### What an expression keeps

An expression accepts tokens, or the front of one, and does nothing else. -/

/-- A property that accepting a token, or the front of one, leaves true. -/
structure AcceptKeeps (P : Cursor σ → Prop) : Prop where
  bump {c : Cursor σ} : P c → P c.bump
  front {c : Cursor σ} (count : Nat) : P c → P (c.splitAfter count).bump

namespace AcceptKeeps

variable {P : Cursor σ → Prop} {c : Cursor σ}

theorem balancedFrom (keeps : AcceptKeeps P) (b : Brackets) (ts : List Token) (depth : Nat)
    (h : P c) : P (balancedFrom b depth ts c) := by
  induction ts generalizing depth c with
  | nil => exact h
  | cons t ts ih =>
    unfold Cursor.balancedFrom
    split
    · exact keeps.front _ h
    · exact ih _ (keeps.bump h)

theorem balanced (keeps : AcceptKeeps P) (b : Brackets) (h : P c) : P (c.balanced b) :=
  keeps.balancedFrom b c.ahead 0 h

theorem groups (keeps : AcceptKeeps P) (hstalled : ∀ d, P d → P (d.fail .stalled)) (bound : Nat)
    (h : P c) : P (c.groups bound) := by
  induction bound generalizing c with
  | zero => exact hstalled c h
  | succ bound ih =>
    unfold Cursor.groups
    split
    · exact ih (keeps.balanced _ h)
    · split
      · exact ih (keeps.balanced _ h)
      · exact h

theorem expressionBody (keeps : AcceptKeeps P) (hstalled : ∀ d, P d → P (d.fail .stalled))
    (h : P c) : P c.expressionBody := by
  unfold Cursor.expressionBody
  split
  · exact keeps.balanced _ h
  · split
    · exact keeps.balanced _ h
    · split
      · exact keeps.groups hstalled _ (keeps.front _ h)
      · exact h

end AcceptKeeps

end Cursor

/-- Embedded code that is always an implicit expression. -/
def EmbeddedCode.implicit {σ : Type} : EmbeddedCode σ where
  parseBlock := Cursor.implicitExpression

end TemplateMarkup
