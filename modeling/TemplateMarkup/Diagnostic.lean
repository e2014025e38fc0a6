import TemplateMarkup.Text.Width

/-!
Diagnostics: what is wrong with a template, and where.

A diagnostic never stops a parse. Ranges are in bytes of the source and leave their end out.
-/

namespace TemplateMarkup

/-- What is wrong. Names are kept as they were written at the place that the problem is about. -/
inductive Problem where
  /-- A tag that the end of the source or a stray character cuts short. -/
  | unfinishedTag (name : List Char)
  /-- An element that is never closed. -/
  | missingEndTag (name : List Char)
  /-- An end tag while no element is open. -/
  | unexpectedEndTag (name : List Char)
  | textTagHasAttributes
  | outerTagUnnamed
  | blockStartsWithoutTag
  deriving DecidableEq, Repr, Inhabited

namespace Problem

/-- The name of the tag that the problem is about, where there is one. -/
def name? : Problem → Option (List Char)
  | unfinishedTag name | missingEndTag name | unexpectedEndTag name => some name
  | _ => none

/-- What the user is told. -/
def message : Problem → String
  | unfinishedTag name =>
    "End of file or an unexpected character was reached before the \"" ++ String.ofList name ++
      "\" tag could be parsed. Elements inside markup blocks must be complete. They must either " ++
      "be self-closing (\"<br />\") or have matching end tags (\"<p>Hello</p>\")."
  | missingEndTag name =>
    "The \"" ++ String.ofList name ++ "\" element was not closed. All elements must be either " ++
      "self-closing or have a matching end tag."
  | unexpectedEndTag name =>
    "Encountered end tag \"" ++ String.ofList name ++ "\" with no matching start tag. Are your " ++
      "start/end tags properly balanced?"
  | textTagHasAttributes => "\"<text>\" and \"</text>\" tags cannot contain attributes."
  | outerTagUnnamed =>
    "Outer tag is missing a name. The first character of a markup block must be an HTML tag with " ++
      "a valid name."
  | blockStartsWithoutTag =>
    "Markup in a code block must start with a tag and all start tags must be matched with end " ++
      "tags. Do not use unclosed tags like \"<br>\". Instead use self-closing tags like \"<br/>\"."

end Problem

/-- A range of the source. -/
structure Range where
  start : Nat
  stop : Nat
  deriving DecidableEq, Repr, Inhabited

/-- The range that begins at an offset and is as wide as a text. -/
def Range.ofText (start : Nat) (text : List Char) : Range := ⟨start, start + Text.width text⟩

structure Diagnostic where
  problem : Problem
  range : Range
  deriving DecidableEq, Repr, Inhabited

/-- The diagnostic on one line: the range, then the message. -/
def Diagnostic.line (d : Diagnostic) : String :=
  toString d.range.start ++ ".." ++ toString d.range.stop ++ ": " ++ d.problem.message

end TemplateMarkup
