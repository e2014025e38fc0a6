import TemplateMarkup.Kind
import TemplateMarkup.Text.Width

/-!
Syntax trees: nodes over leaves that hold the source's text.

A tree stores no offsets. The text of a node is the text of its leaves, in order, and a leaf's place
in the source follows from the leaves before it. `width_eq` says that the width of a tree is that of
its text.
-/

namespace TemplateMarkup

inductive Tree where
  | token (kind : Kind) (text : List Char)
  | node (kind : Kind) (children : List Tree)
  deriving Inhabited

namespace Tree

def kind : Tree → Kind
  | token kind _ => kind
  | node kind _ => kind

def isNode : Tree → Bool
  | token .. => false
  | node .. => true

def children : Tree → List Tree
  | token .. => []
  | node _ children => children

mutual

/-- The source text under the tree. -/
def text : Tree → List Char
  | token _ text => text
  | node _ children => textOf children

/-- The source text under neighbouring trees. -/
def textOf : List Tree → List Char
  | [] => []
  | t :: ts => t.text ++ textOf ts

end

mutual

/-- The number of bytes of source under the tree. -/
def width : Tree → Nat
  | token _ text => Text.width text
  | node _ children => widthOf children

/-- The number of bytes of source under neighbouring trees. -/
def widthOf : List Tree → Nat
  | [] => 0
  | t :: ts => t.width + widthOf ts

end

/-- The first node of a kind among the children. -/
def child? (t : Tree) (kind : Kind) : Option Tree :=
  t.children.find? fun child => child.isNode && child.kind == kind

mutual

theorem width_eq : (t : Tree) → t.width = Text.width t.text
  | token _ _ => rfl
  | node _ children => widthOf_eq children

theorem widthOf_eq : (ts : List Tree) → widthOf ts = Text.width (textOf ts)
  | [] => rfl
  | t :: ts => by simp [widthOf, textOf, width_eq t, widthOf_eq ts]

end

theorem textOf_eq_flatMap (ts : List Tree) : textOf ts = ts.flatMap text := by
  induction ts with
  | nil => rfl
  | cons t ts ih => simp [textOf, ih]

@[simp] theorem textOf_append (a b : List Tree) : textOf (a ++ b) = textOf a ++ textOf b := by
  simp [textOf_eq_flatMap]

end Tree

end TemplateMarkup
