import TemplateMarkup.Markup.Tag

/-!
# Markup between nesting sequences

Markup inside a host's code ends at the sequence that closes the region. Opening and closing
sequences count in text only; tags are recognised, so that their attributes and scripts are passed
over, but they do not nest.
-/

namespace TemplateMarkup

/-- Whether the text begins with the sequence. An empty sequence begins nothing. -/
def sequenceAt (caseSensitive : Bool) (sequence text : List Char) : Bool :=
  let head := text.take sequence.length
  !sequence.isEmpty &&
    if caseSensitive then head == sequence else Text.sameIgnoringCase head sequence

/-- Which of the two sequences comes first in a text, and how many characters stand before it. -/
inductive Bound where
  | opener (before : Nat)
  | closer (before : Nat)
  | none
  deriving DecidableEq, Repr

/-- The place one character later. -/
def Bound.later : Bound → Bound
  | opener before => opener (before + 1)
  | closer before => closer (before + 1)
  | none => none

/-- The first sequence in a text. Where both begin, it is the opening one. -/
def firstBound (caseSensitive : Bool) (opener closer : List Char) : List Char → Bound
  | [] => .none
  | c :: rest =>
    if sequenceAt caseSensitive opener (c :: rest) then .opener 0
    else if sequenceAt caseSensitive closer (c :: rest) then .closer 0
    else (firstBound caseSensitive opener closer rest).later

namespace Cursor

variable {σ : Type}

/-- Reads the text token at the cursor through the first sequence in it. The answer is the depth
behind it; at depth zero the closing sequence stays at the cursor. -/
def nestingText (c : Cursor σ) (opener closer : List Char) (depth : Nat) : Nat × Cursor σ :=
  match firstBound c.context.caseSensitive opener closer c.currentText with
  | .opener before => (depth + 1, (c.splitAfter (before + opener.length)).bump)
  | .closer before =>
    if depth = 0 then (0, c.fail .depthUnderflow)
    else if depth = 1 then (0, if 0 < before then (c.splitAfter before).bump else c)
    else (depth - 1, (c.splitAfter (before + closer.length)).bump)
  | .none => (depth, c.bump)

/-- Reads one tag without a place in any nesting. -/
def looseTag (c : Cursor σ) (code : EmbeddedCode σ) : Cursor σ :=
  if c.atSpecialTag then (c.specialTag code).2
  else
    let (m, c) := c.start
    let (isEnd, c) := c.bump.eat .slash
    if isEnd then
      let c := (c.bangEscape.eatName).bumpWhile (·.kind == .whitespace)
      (c.eat .closeAngle).2.complete m .tagBlock
    else
      let name := c.tagNameAt 0
      let (attributes, c) := c.bangEscape.eatName.attributes code
      let (selfClosing, c) := c.eat .slash
      let (closed, c) := c.eat .closeAngle
      let c :=
        if closed then
          let c := c.flush .literal
          let options := c.context.options
          if !selfClosing ∧ options.isScriptTag name ∧ !scriptHoldsMarkup options attributes then
            c.scriptBody code name
          else c
        else c
      c.complete m .tagBlock

/-- Reads text and tags until the depth is zero, in at most `bound` pieces. -/
def nestingFrom (code : EmbeddedCode σ) (opener closer : List Char) :
    Nat → Nat → Cursor σ → Cursor σ
  | 0, _, c => c.fail .stalled
  | bound + 1, depth, c =>
    let c := c.skipUntil code fun c => c.at? .text || c.at? .openAngle
    if c.atEnd then c
    else if c.at? .openAngle then
      nestingFrom code opener closer bound depth ((c.flush .literal).looseTag code)
    else
      let (depth, c) := c.nestingText opener closer depth
      if depth = 0 then c else nestingFrom code opener closer bound depth c

/-- Reads the markup up to the sequence that closes the region. -/
def nestingContent (c : Cursor σ) (code : EmbeddedCode σ) (nesting : Nesting) : Cursor σ :=
  (nestingFrom code nesting.opener.toList nesting.closer.toList (c.unclaimed + 1) 1 c).flush
    .literal

/-- Reads one region of nested markup as a unit. -/
def nestedBlock (c : Cursor σ) (code : EmbeddedCode σ) (nesting : Nesting) : Cursor σ :=
  let (m, c) := c.start
  (c.nestingContent code nesting).complete m .markupBlock

end Cursor

end TemplateMarkup
