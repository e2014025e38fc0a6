import TemplateMarkup.Cursor

/-!
# Tag names

A tag's name is the run of text tokens after its `<` or `</`. A `!` directly before a name takes the
meaning from the tag and is part of its name, except in `<!DOCTYPE`.
-/

namespace TemplateMarkup

namespace Cursor

variable {σ : Type}

/-- Whether the `n`-th token ahead is a `!` that escapes a tag name. -/
def bangEscapeAt (c : Cursor σ) (n : Nat) : Bool :=
  c.nth n == .bang && c.nth (n + 1) == .text &&
    !Text.sameIgnoringCase (c.nthText (n + 1)) "DOCTYPE".toList

/-- Flushes an escaping `!` as metacode, if one comes next. -/
def bangEscape (c : Cursor σ) : Cursor σ :=
  if c.bangEscapeAt 0 then (c.flush .literal).bump.flush .metacode else c

/-- The text of the text tokens from the `n`-th ahead on. -/
def textRunAt (c : Cursor σ) (n : Nat) : List Char :=
  Token.textOf ((c.ahead.drop n).takeWhile (·.kind == .text))

/-- The tag name that begins `n` tokens ahead. -/
def tagNameAt (c : Cursor σ) (n : Nat) : List Char :=
  if c.bangEscapeAt n then '!' :: c.textRunAt (n + 1) else c.textRunAt n

/-- Accepts the text tokens of a name. -/
def eatName (c : Cursor σ) : Cursor σ := c.bumpWhile (·.kind == .text)

end Cursor

end TemplateMarkup
