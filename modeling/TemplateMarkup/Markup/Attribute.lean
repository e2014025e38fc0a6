import TemplateMarkup.Markup.Scan

/-!
# Attributes

The attributes of a start tag run up to its `>` or `/>`, to a `<` that cuts the tag short, or to the
end of the source. Code and comments may stand between them and inside their values.
-/

namespace TemplateMarkup

/-- An attribute as the tag sees it. The value is the text between the quotes; an attribute without
an equals sign has none. -/
structure Attribute where
  name : List Char
  value? : Option (List Char)
  deriving DecidableEq, Repr

/-- Whether a token of this kind ends an attribute's name. -/
def Kind.endsAttributeName : Kind → Bool
  | .whitespace | .newline | .equals | .closeAngle | .openAngle | .slash | .doubleQuote
  | .singleQuote | .transition | .commentOpen | .endOfInput => true
  | _ => false

namespace Cursor

variable {σ : Type}

/-- Whether the cursor is where a value without quotes ends. -/
def atBareValueEnd (c : Cursor σ) : Bool :=
  match c.current with
  | .whitespace | .newline | .closeAngle | .openAngle => true
  | .slash => c.nth 1 == .closeAngle
  | _ => false

/-- Reads an attribute's value, with its quotes if it has any. -/
def attributeValue (c : Cursor σ) (code : EmbeddedCode σ) : List Char × Cursor σ :=
  let quote := c.current
  let quoted := quote = .doubleQuote ∨ quote = .singleQuote
  let c := if quoted then c.bump else c
  let (m, c) := c.start
  let first := c.position
  let c := if quoted then c.skipTo code quote else c.skipUntil code atBareValueEnd
  let value := c.textBetween first c.position
  let c := c.complete m .attributeValue
  (value, if quoted then (c.eat quote).2 else c)

/-- Reads one attribute. -/
def readAttribute (c : Cursor σ) (code : EmbeddedCode σ) : Attribute × Cursor σ :=
  let (m, c) := c.start
  let first := c.position
  let c := c.bumpWhile (!·.kind.endsAttributeName)
  let name := c.textBetween first c.position
  let blanks := c.runLength (·.kind == .whitespace) 0
  let (value?, c) :=
    if c.nth blanks = .equals then
      let (value, c) :=
        ((c.bumpN (blanks + 1)).bumpWhile (·.kind == .whitespace)).attributeValue code
      (some value, c)
    else (none, c)
  (⟨name, value?⟩, c.complete m .attributeBlock)

/-- Reads attributes, at most `bound` of them with whatever stands between. -/
def attributesFrom (code : EmbeddedCode σ) : Nat → Cursor σ → List Attribute × Cursor σ
  | 0, c => ([], c.fail .stalled)
  | bound + 1, c =>
    let c := c.bumpWhile (·.kind.isTrivia)
    match c.current with
    | .endOfInput | .closeAngle | .openAngle => ([], c)
    | .slash =>
      if c.nth 1 = .closeAngle ∨ c.nth 1 = .endOfInput then ([], c)
      else attributesFrom code bound c.bump
    | .transition => attributesFrom code bound (code.block (c.flush .literal))
    | .commentOpen => attributesFrom code bound (code.comment (c.flush .literal))
    | .equals | .doubleQuote | .singleQuote => attributesFrom code bound c.bump
    | _ =>
      let (a, c) := c.readAttribute code
      let (rest, c) := attributesFrom code bound c
      (a :: rest, c)

/-- Reads the attributes of a start tag. What ends them is left at the cursor. -/
def attributes (c : Cursor σ) (code : EmbeddedCode σ) : List Attribute × Cursor σ :=
  attributesFrom code (code.budget c) c

end Cursor

end TemplateMarkup
