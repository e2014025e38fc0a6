import TemplateMarkup.Code

/-!
# Scanning literal markup

A scan walks over literal text up to a place the caller names, and hands embedded code and inline
comments to the code parser on the way. Everything else is accepted for the caller to flush.

The token before the cursor is held back, because the blanks that begin a line belong to the code
that follows them, or are not rendered when an inline comment does.
-/

namespace TemplateMarkup

/-- Where in its line a scan stands, as far as it has seen the line. -/
inductive LinePlace where
  /-- Right behind a line ending. -/
  | start
  /-- Behind the blanks that begin a line, which are held. -/
  | indent
  | inside
  deriving DecidableEq, Repr

namespace Cursor

variable {σ : Type}

/-- Flushes blanks and a line ending as an ephemeral literal, and says whether there was a line
ending. Without one nothing happens. -/
def ephemeralLineEnd (c : Cursor σ) : Bool × Cursor σ :=
  let blanks := if c.at? .whitespace then 1 else 0
  if c.nth blanks = .newline then (true, (c.bumpN (blanks + 1)).flush .ephemeral) else (false, c)

/-- Flushes the rest of a line as ephemeral, and says where the scan stands then. -/
def endLine (c : Cursor σ) : LinePlace × Cursor σ :=
  let (ended, c) := c.ephemeralLineEnd
  (if ended then .start else .inside, c)

/-- Whether the cursor is at the beginning of the source or right behind a line ending. -/
def atLineStart (c : Cursor σ) : Bool := c.previous?.all (· == .newline)

/-- One step of a scan that is not at the end of the source. -/
def scanStep (code : EmbeddedCode σ) (place : LinePlace) (c : Cursor σ) : LinePlace × Cursor σ :=
  if c.context.ephemeralLineEnding then
    ({ c with context.ephemeralLineEnding := false }.acceptRead.flush .literal).endLine
  else
    match c.current with
    | .newline => (.start, c.bump)
    | .transition =>
      if c.nth 1 = .transition then
        -- A doubled `@` is rendered as one.
        (.inside, ((c.acceptRead.flush .literal).bump.flush .ephemeral).bump)
      else
        let indented := place = .indent ∧ !c.context.options.designTime
        let c := if indented then c.putBack else c.acceptRead
        (.inside, code.block (c.flush .literal))
    | .commentOpen =>
      let leading := place != .inside || c.atLineStart
      let c := (c.flush .literal).acceptRead
      let c := code.comment (c.flush (if place = .indent then .ephemeral else .literal))
      if leading then c.endLine else (.inside, c)
    | kind =>
      (if kind = .whitespace ∧ place ≠ .inside then .indent else .inside, c.acceptRead.advance)

/-- Repeats the step until the scan may stop, at most `bound` times. -/
def scanFrom (code : EmbeddedCode σ) (stop : Cursor σ → Bool) :
    Nat → LinePlace → Cursor σ → Cursor σ
  | 0, _, c => c.fail .stalled
  | bound + 1, place, c =>
    if c.atEnd || stop c then c.acceptRead
    else
      let (place, c) := c.scanStep code place
      scanFrom code stop bound place c

/-- Scans to the first place where the test holds, or to the end of the source. Everything before
that place is accepted. -/
def skipUntil (c : Cursor σ) (code : EmbeddedCode σ) (stop : Cursor σ → Bool) : Cursor σ :=
  scanFrom code stop (code.budget c) .inside c

/-- Scans to the next token of the kind, or to the end of the source. -/
def skipTo (c : Cursor σ) (code : EmbeddedCode σ) (kind : Kind) : Cursor σ :=
  c.skipUntil code (·.at? kind)

/-- Accepts tokens up to the first of one of the kinds. Code is not looked for. -/
def acceptUntil (c : Cursor σ) (kinds : List Kind) : Cursor σ :=
  c.bumpWhile fun t => !kinds.contains t.kind

/-- Whether the next tokens have these kinds. -/
def sees (c : Cursor σ) (kinds : List Kind) : Bool :=
  (c.ahead.take kinds.length).map Token.kind == kinds

/-- Scans to the first place where tokens of the given kinds stand in a row, at most `bound` times
from one candidate to the next, and accepts them. -/
def acceptThroughFrom (code : EmbeddedCode σ) (first : Kind) (rest : List Kind) :
    Nat → Cursor σ → Bool × Cursor σ
  | 0, c => (false, c.fail .stalled)
  | bound + 1, c =>
    let c := c.skipTo code first
    if c.atEnd then (false, c)
    else if c.sees (first :: rest) then (true, c.bumpN (rest.length + 1))
    else acceptThroughFrom code first rest bound c.bump

/-- Scans through the first run of tokens of the given kinds. The answer is false if the source ends
without one. -/
def acceptThrough (c : Cursor σ) (code : EmbeddedCode σ) (first : Kind) (rest : List Kind) :
    Bool × Cursor σ :=
  acceptThroughFrom code first rest (c.unclaimed + 1) c

/-- The number of spacing tokens from the `n`-th ahead on. -/
def spacing (c : Cursor σ) (n : Nat) : Nat := c.runLength (·.kind.isTrivia) n

end Cursor

end TemplateMarkup
