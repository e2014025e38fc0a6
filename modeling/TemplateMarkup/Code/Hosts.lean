import TemplateMarkup.Code.Expression

/-!
# Sample code parsers

Small embedded languages beside implicit expressions, each with one habit that markup has to cope
with: asking for an unrendered line ending, claiming nothing, claiming whole lines, and looking at
the shared context.
-/

namespace TemplateMarkup

namespace Cursor

variable {σ : Type}

/-- Accepts one token and the text after it as code, and asks for the line ending behind it not to be
rendered. -/
def statement (c : Cursor σ) : Cursor σ :=
  let (m, c) := c.start
  let c := ((c.bump.bumpWhile (·.kind == .text)).flushRaw).complete m .codeBlock
  { c with context.ephemeralLineEnding := true }

/-- Accepts the rest of the line with its ending as code. -/
def codeLine (c : Cursor σ) : Cursor σ :=
  let (m, c) := c.start
  let (_, c) := (c.bumpWhile (·.kind != .newline)).eat .newline
  c.flushRaw.complete m .codeBlock

end Cursor

namespace EmbeddedCode

/-- Code made of statements of one word. -/
def statement {σ : Type} : EmbeddedCode σ where
  parseBlock := Cursor.statement

/-- Code that reaches to the end of its line. -/
def line {σ : Type} : EmbeddedCode σ where
  parseBlock := Cursor.codeLine

/-- A parser that claims nothing, neither code nor comments. -/
def nothing {σ : Type} : EmbeddedCode σ where
  parseBlock c := c
  parseComment c := c

/-- Implicit expressions, with a record of whether whitespace was significant at each. -/
def recorder : EmbeddedCode (List Bool) where
  parseBlock c :=
    { c with host := c.host ++ [c.context.whitespaceSignificant] }.implicitExpression

end EmbeddedCode

end TemplateMarkup
