import TemplateMarkup.Event
import TemplateMarkup.Token
import TemplateMarkup.Tree

/-!
Building a tree from a source's tokens and the events of a parse.

The build fails when a leaf takes more tokens than are left, when a node is finished that was never
started, and when the events do not amount to exactly one node. A node that is started and never
finished leaves its children to the node around it. Tokens that no event takes are ignored.
-/

namespace TemplateMarkup

namespace Tree

/-- A tree in the making. Innermost frames come first, and so do the latest children. -/
structure Builder where
  unread : List Token
  /-- The nodes that are started and not finished, each with its children so far. -/
  frames : List (Kind × List Tree)
  /-- The finished trees outside every frame. -/
  roots : List Tree

namespace Builder

/-- Adds a finished tree to the innermost open node. -/
def add (b : Builder) (t : Tree) : Builder :=
  match b.frames with
  | [] => { b with roots := t :: b.roots }
  | (kind, children) :: outer => { b with frames := (kind, t :: children) :: outer }

/-- The effect of one event; `none` where the events do not fit the tokens or each other. -/
def step (b : Builder) : Event → Option Builder
  | .start kind => some { b with frames := (kind, []) :: b.frames }
  | .token kind count =>
    let taken := b.unread.take count
    if taken.length = count then
      some ({ b with unread := b.unread.drop count }.add (.token kind (Token.textOf taken)))
    else none
  | .finish =>
    match b.frames with
    | [] => none
    | (kind, children) :: outer =>
      some ({ b with frames := outer }.add (.node kind children.reverse))
  | .placeholder => some b

/-- What stands at the top level once unfinished nodes are passed over, the latest first. -/
def topLevel (b : Builder) : List Tree := b.frames.flatMap Prod.snd ++ b.roots

/-- The tree, if there is exactly one and it is a node. -/
def tree? (b : Builder) : Option Tree :=
  match b.topLevel with
  | [.node kind children] => some (.node kind children)
  | _ => none

end Builder

/-- The tree that the events describe over the tokens. -/
def ofEvents? (tokens : List Token) (events : List Event) : Option Tree :=
  (events.foldlM Builder.step ⟨tokens, [], []⟩).bind Builder.tree?

end Tree

end TemplateMarkup
