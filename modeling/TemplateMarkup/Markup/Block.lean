import TemplateMarkup.Markup.Tag

/-!
# Units of markup

A host that meets markup in its code asks for one unit of it: an element, an element behind an `@`,
or the rest of a line behind `@:`. What the unit does not claim goes back to the host.
-/

namespace TemplateMarkup

namespace Cursor

variable {σ : Type}

/-- Reads markup to the end of the line. Whitespace is significant to the code inside it. -/
def singleLine (c : Cursor σ) (code : EmbeddedCode σ) : Cursor σ :=
  let outer := c.context.whitespaceSignificant
  let c := { c with context.whitespaceSignificant := true }
  let c := ((c.skipTo code .newline).eat .newline).2
  { c with context.whitespaceSignificant := outer }.flush .literal

/-- Reads what follows the `@` or `@@` that a unit of markup begins with. -/
def afterTransition (c : Cursor σ) (code : EmbeddedCode σ) : Cursor σ :=
  match c.current with
  | .colon => (c.bump.flush .metacode).singleLine code
  | .openAngle => c.tagBlock code
  | _ => c

/-- Flushes the second `@` of a doubled one as metacode. -/
def doubledTransition (c : Cursor σ) : Cursor σ :=
  let (doubled, c) := c.eat .transition
  if doubled then c.flush .metacode else c

/-- Reads the content of a unit of markup, behind its leading whitespace. -/
def blockContent (c : Cursor σ) (code : EmbeddedCode σ) : Cursor σ :=
  match c.current with
  | .openAngle => c.tagBlock code
  | .transition =>
    (((c.flush .literal).bump.flush .markupTransition).doubledTransition).afterTransition code
  | .endOfInput => c
  | _ => c.report .blockStartsWithoutTag (.ofText c.offset c.currentText)

/-- Reads one unit of markup. -/
def block (c : Cursor σ) (code : EmbeddedCode σ) : Cursor σ :=
  let (m, c) := c.start
  ((c.bumpWhile (·.kind.isTrivia)).blockContent code).complete m .markupBlock

end Cursor

end TemplateMarkup
