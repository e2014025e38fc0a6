import TemplateMarkup.Cursor

/-!
# The seam between markup and embedded code

Markup never reads code itself. At an `@`, or at the `@*` of an inline comment, it hands the cursor
to an embedded-code parser and goes on where that one leaves it. A code parser that leaves the cursor
where it was gives the markup one token to skip, so that scanning goes on.

The loop over attributes could still go on for ever, if one call kept putting back what another has
read and not accepted. A code parser says by its `patience` how often its calls may do that, and
`budget` turns this into a bound on the number of steps of that loop and of a scan.
-/

namespace TemplateMarkup

namespace Cursor

variable {σ : Type}

/-- Accepts an inline comment, from its `@*` to the next `*@` or to the end of the source. -/
def inlineComment (c : Cursor σ) : Cursor σ :=
  if c.at? .commentOpen then
    let (m, c) := c.start
    let c := c.bump.bumpWhile (·.kind != .commentClose)
    let (_, c) := c.eat .commentClose
    c.flushRaw.complete m .inlineComment
  else c

end Cursor

/-- A parser of embedded code, with a state of type `σ` in the cursor. -/
structure EmbeddedCode (σ : Type) where
  /-- Reads one piece of code. The cursor is on an `@` or on the whitespace before it. -/
  parseBlock : Cursor σ → Cursor σ
  /-- Reads one inline comment. The cursor is on an `@*`. -/
  parseComment : Cursor σ → Cursor σ := Cursor.inlineComment
  /-- How many more calls may leave the cursor in front of where they found it. -/
  patience : σ → Nat := fun _ => 0

namespace EmbeddedCode

variable {σ : Type}

/-- Skips one token as metacode if the cursor is still where it was. -/
def ensureProgress (before : Nat) (c : Cursor σ) : Cursor σ :=
  if c.position = before ∧ !c.atEnd then c.bump.flush .metacode else c

/-- Hands over one piece of code. -/
def block (code : EmbeddedCode σ) (c : Cursor σ) : Cursor σ :=
  ensureProgress c.position (code.parseBlock c)

/-- Hands over one inline comment. -/
def comment (code : EmbeddedCode σ) (c : Cursor σ) : Cursor σ :=
  ensureProgress c.position (code.parseComment c)

/-- How many steps a scan or the loop over attributes may take from the cursor: between two calls
that go back, each character not accepted yet is good for at most two. -/
def budget (code : EmbeddedCode σ) (c : Cursor σ) : Nat :=
  (code.patience c.host + 1) * (2 * c.unclaimed + 2)

end EmbeddedCode

end TemplateMarkup
