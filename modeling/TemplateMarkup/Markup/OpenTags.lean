import TemplateMarkup.Cursor

/-!
# Open tags

The start tags that wait for their end tag, the innermost first. Each owns the node of its element,
so that what is read while the tag is open lands inside that node. Whoever takes a tag off the list
closes it.
-/

namespace TemplateMarkup

structure OpenTag where
  name : List Char
  /-- The offset of the tag's `<`. -/
  start : Nat
  /-- The element's node. A text tag has none. -/
  block? : Option Marker
  deriving DecidableEq, Repr

namespace OpenTag

/-- The range of the tag's name. -/
def nameRange (t : OpenTag) : Range := .ofText (t.start + 1) t.name

variable {σ : Type}

/-- Closes the element's node. -/
def close (t : OpenTag) (c : Cursor σ) : Cursor σ :=
  match t.block? with
  | some m => c.complete m .tagBlock
  | none => c

/-- Closes the node of an element that has no end tag, and reports it. -/
def closeUnended (t : OpenTag) (c : Cursor σ) : Cursor σ :=
  t.close (c.report (.missingEndTag t.name) t.nameRange)

end OpenTag

/-- Open tags, the innermost first. -/
abbrev OpenTags := List OpenTag

namespace OpenTags

variable {σ : Type}

/-- Takes off the tags in front of the innermost one with the name, closing and reporting each, and
then that one, which it returns. If no tag has the name, all are taken off, and the end tag is
reported only if there was none at all. The offset is that of the end tag's `<`. -/
def removeMatching (name : List Char) (endTag : Nat) :
    OpenTags → Cursor σ → Option OpenTag × OpenTags × Cursor σ
  | [], c => (none, [], c.report (.unexpectedEndTag name) (.ofText (endTag + 2) name))
  | t :: rest, c =>
    if Text.sameIgnoringCase t.name name then (some t, rest, c)
    else
      let c := t.closeUnended c
      if rest.isEmpty then (none, [], c) else removeMatching name endTag rest c

/-- Closes every tag. Only the innermost is reported; the answer is true if there was none. -/
def drain : OpenTags → Cursor σ → Bool × Cursor σ
  | [], c => (true, c)
  | t :: rest, c => (false, rest.foldl (fun c t => t.close c) (t.closeUnended c))

end OpenTags

end TemplateMarkup
