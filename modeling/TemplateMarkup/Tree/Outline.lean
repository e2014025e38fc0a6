import TemplateMarkup.Text.Quoted
import TemplateMarkup.Tree

/-!
The outline of a tree: its nodes and leaves in source order, each with its depth and its range.

The printed form has one line per entry, indented by depth; a leaf's line ends with its text in
quotes.
-/

namespace TemplateMarkup

namespace Tree

/-- A node or a leaf with its depth below the root and its range in bytes. -/
structure Entry where
  depth : Nat
  kind : Kind
  start : Nat
  stop : Nat
  /-- The text of a leaf; a node has none of its own. -/
  text? : Option (List Char)
  deriving DecidableEq, Repr

mutual

/-- The entries of a tree that stands at a depth and begins at an offset. -/
def outlineFrom (depth start : Nat) : Tree → List Entry
  | token kind text => [⟨depth, kind, start, start + Text.width text, some text⟩]
  | node kind children =>
    ⟨depth, kind, start, start + widthOf children, none⟩ ::
      outlineOf (depth + 1) start children

/-- The entries of neighbouring trees, the first of which begins at the offset. -/
def outlineOf (depth start : Nat) : List Tree → List Entry
  | [] => []
  | t :: ts => outlineFrom depth start t ++ outlineOf depth (start + t.width) ts

end

/-- The entries of a tree whose root begins the source. -/
def outline (t : Tree) : List Entry := outlineFrom 0 0 t

namespace Entry

/-- The entry's line: two blanks for each level, the kind, the range and a leaf's quoted text. -/
def line (e : Entry) : List Char :=
  List.replicate (2 * e.depth) ' ' ++ e.kind.name.toList ++
    '@' :: Nat.toDigits 10 e.start ++ '.' :: '.' :: Nat.toDigits 10 e.stop ++
    match e.text? with
    | some text => ' ' :: Text.quote text
    | none => []

end Entry

/-- The lines of the outline, without a line ending after the last one. -/
def dump (t : Tree) : String :=
  String.ofList (['\n'].intercalate (t.outline.map Entry.line))

end Tree

end TemplateMarkup
