import TemplateMarkup.Code.Expression
import TemplateMarkup.Markup.OpenTags

/-!
# Scripted code parsers

A script says call by call what an embedded-code parser does with the cursor: a list of steps for
each piece of code and one for each inline comment, in the order in which they are met. When the
lists are used up, implicit expressions and inline comments take over. Each step leaves a record of
what the cursor then shows.

A step may hand over to the code parser again, so lists can run inside each other. Each such call
uses up a list, which bounds the depth.
-/

namespace TemplateMarkup

namespace Script

/-- A part of the context that a step can read and write. -/
inductive Flag where
  | caseSensitive
  | whitespaceSignificant
  | ephemeralLineEnding
  | designTime
  deriving DecidableEq, Repr

namespace Flag

def get (flag : Flag) (context : Context) : Bool :=
  match flag with
  | caseSensitive => context.caseSensitive
  | whitespaceSignificant => context.whitespaceSignificant
  | ephemeralLineEnding => context.ephemeralLineEnding
  | designTime => context.options.designTime

def set (flag : Flag) (value : Bool) (context : Context) : Context :=
  match flag with
  | caseSensitive => { context with caseSensitive := value }
  | whitespaceSignificant => { context with whitespaceSignificant := value }
  | ephemeralLineEnding => { context with ephemeralLineEnding := value }
  | designTime => { context with options.designTime := value }

theorem get_set (flag : Flag) (value : Bool) (context : Context) :
    flag.get (flag.set value context) = value := by
  cases flag <;> rfl

end Flag

/-- What a code parser can do with the cursor. -/
inductive Step where
  | bump
  | advance
  | acceptRead
  /-- Remembers the position. -/
  | mark
  /-- Rewinds to the position remembered last. -/
  | rewindToMark
  | rewind (index : Nat)
  | eat (kind : Kind)
  | look (kind : Kind)
  | nth (n : Nat)
  | kindAt (index : Nat)
  | textBetween (start stop : Nat)
  | split (byte : Nat)
  | flush (kind : Kind)
  | flushRaw
  | missing (kind : Kind)
  | start
  /-- Completes the node started last. -/
  | complete (kind : Kind)
  /-- Gives up the node started last. -/
  | abandon
  | report (problem : Problem) (range : Range)
  | set (flag : Flag) (value : Bool)
  | get (flag : Flag)
  /-- Hands over a piece of code. -/
  | code
  /-- Hands over an inline comment. -/
  | comment
  | inlineComment
  | implicitExpression
  /-- Opens a tag, with a node of its own or without. -/
  | push (name : List Char) (start : Nat) (withBlock : Bool)
  /-- Takes the innermost open tag of the name off and keeps it. -/
  | remove (name : List Char) (endTag : Nat)
  /-- Closes the tag kept last. -/
  | close
  | drain
  | noOpenTags
  deriving Repr

/-- What a step answers. -/
inductive Answer where
  | none
  | flag (value : Bool)
  | kind (kind : Kind)
  | text (text : List Char)
  | token (kind : Kind) (text : List Char) (start : Nat)
  | range (range : Range)
  deriving DecidableEq, Repr

/-- Which list of steps a record belongs to. -/
inductive Source where
  | block (index : Nat)
  | comment (index : Nat)
  deriving DecidableEq, Repr

/-- When a record was made. -/
inductive Moment where
  | enter
  | after (step : Step)
  | leave
  deriving Repr

/-- What the cursor showed at one moment of a script. -/
structure Record where
  source : Source
  moment : Moment
  answer : Answer
  position : Nat
  current : Kind
  currentText : List Char
  offset : Nat
  atEnd : Bool
  hasPending : Bool
  lastNode : Option Kind
  /-- How many tokens the source has by then; a split makes them more. -/
  tokenCount : Nat
  deriving Repr

end Script

/-- The lists of steps that are left, and the records made so far. -/
structure Script where
  blocks : List (List Script.Step)
  comments : List (List Script.Step)
  /-- How many lists for code are used up. -/
  blocksRun : Nat := 0
  /-- How many lists for comments are used up. -/
  commentsRun : Nat := 0
  /-- The latest first. -/
  records : List Script.Record := []

namespace Script

/-- The number of lists that are left. -/
def remaining (s : Script) : Nat := s.blocks.length + s.comments.length

/-- Adds a record of what the cursor shows. -/
def record (source : Source) (moment : Moment) (answer : Answer) (c : Cursor Script) :
    Cursor Script :=
  let r : Record :=
    { source, moment, answer
      position := c.position
      current := c.current
      currentText := c.currentText
      offset := c.offset
      atEnd := c.atEnd
      hasPending := c.hasPending
      lastNode := c.lastNode
      tokenCount := c.tokens.length }
  { c with host := { c.host with records := r :: c.host.records } }

/-- The state of one list of steps: the cursor and what only this list knows. -/
structure Run where
  cursor : Cursor Script
  /-- The nodes started and not completed, the latest first. -/
  markers : List Marker := []
  openTags : OpenTags := []
  /-- The tags taken off and not closed, the latest first. -/
  kept : List OpenTag := []
  /-- The position remembered last. -/
  saved : Nat

namespace Run

/-- The effect of one step. Code and comments are handed to `inner`. -/
def step (inner : EmbeddedCode Script) (r : Run) : Step → Answer × Run
  | .bump => (.none, { r with cursor := r.cursor.bump })
  | .advance => (.none, { r with cursor := r.cursor.advance })
  | .acceptRead => (.none, { r with cursor := r.cursor.acceptRead })
  | .mark => (.none, { r with saved := r.cursor.position })
  | .rewindToMark => (.none, { r with cursor := r.cursor.rewind r.saved })
  | .rewind index => (.none, { r with cursor := r.cursor.rewind index })
  | .eat kind =>
    let (eaten, c) := r.cursor.eat kind
    (.flag eaten, { r with cursor := c })
  | .look kind => (.flag (r.cursor.at? kind), r)
  | .nth n => (.token (r.cursor.nth n) (r.cursor.nthText n) (r.cursor.nthStart n), r)
  | .kindAt index => (.kind (r.cursor.kindAt index), r)
  | .textBetween start stop => (.text (r.cursor.textBetween start stop), r)
  | .split byte =>
    match r.cursor.split? byte with
    | some c => (.flag true, { r with cursor := c })
    | none => (.flag false, r)
  | .flush kind => (.none, { r with cursor := r.cursor.flush kind })
  | .flushRaw => (.none, { r with cursor := r.cursor.flushRaw })
  | .missing kind => (.none, { r with cursor := r.cursor.missing kind })
  | .start =>
    let (m, c) := r.cursor.start
    (.none, { r with cursor := c, markers := m :: r.markers })
  | .complete kind =>
    match r.markers with
    | [] => (.none, r)
    | m :: rest => (.none, { r with cursor := r.cursor.complete m kind, markers := rest })
  | .abandon =>
    match r.markers with
    | [] => (.none, r)
    | m :: rest => (.none, { r with cursor := r.cursor.abandon m, markers := rest })
  | .report problem range => (.none, { r with cursor := r.cursor.report problem range })
  | .set flag value =>
    let c := { r.cursor with context := flag.set value r.cursor.context }
    (.flag (flag.get c.context), { r with cursor := c })
  | .get flag => (.flag (flag.get r.cursor.context), r)
  | .code => (.none, { r with cursor := inner.block r.cursor })
  | .comment => (.none, { r with cursor := inner.comment r.cursor })
  | .inlineComment => (.none, { r with cursor := r.cursor.inlineComment })
  | .implicitExpression => (.none, { r with cursor := r.cursor.implicitExpression })
  | .push name start withBlock =>
    let (block?, c) :=
      if withBlock then
        let (m, c) := r.cursor.start
        (some m, c)
      else (none, r.cursor)
    let openTags := ⟨name, start, block?⟩ :: r.openTags
    (.flag openTags.isEmpty, { r with cursor := c, openTags })
  | .remove name endTag =>
    match OpenTags.removeMatching name endTag r.openTags r.cursor with
    | (some t, openTags, c) =>
      (.range t.nameRange, { r with cursor := c, openTags, kept := t :: r.kept })
    | (none, openTags, c) => (.none, { r with cursor := c, openTags })
  | .close =>
    match r.kept with
    | [] => (.none, r)
    | t :: rest => (.none, { r with cursor := t.close r.cursor, kept := rest })
  | .drain =>
    let (clean, c) := r.openTags.drain r.cursor
    (.flag clean, { r with cursor := c, openTags := [] })
  | .noOpenTags => (.flag r.openTags.isEmpty, r)

/-- The effect of a list of steps, with a record after each. -/
def steps (inner : EmbeddedCode Script) (source : Source) (r : Run) (list : List Step) : Run :=
  list.foldl
    (fun r s =>
      let (answer, r) := r.step inner s
      { r with cursor := record source (.after s) answer r.cursor })
    r

/-- Closes what the list of steps left open: kept tags, open tags, then nodes. -/
def close (r : Run) : Cursor Script :=
  let c := r.kept.foldl (fun c t => t.close c) r.cursor
  let (_, c) := r.openTags.drain c
  r.markers.foldl (fun c m => c.complete m .codeBlock) c

end Run

/-- Runs one list of steps from the cursor. -/
def runList (inner : EmbeddedCode Script) (source : Source) (list : List Step)
    (c : Cursor Script) : Cursor Script :=
  let c := record source .enter .none c
  record source .leave .none (Run.steps inner source { cursor := c, saved := c.position } list).close

/-- The code parser that follows the script in the cursor. The number bounds how deep lists run
inside each other. -/
def parser : Nat → EmbeddedCode Script
  | 0 => .implicit
  | depth + 1 =>
    { parseBlock := fun c =>
        match c.host.blocks with
        | [] => c.implicitExpression
        | list :: blocks =>
          let index := c.host.blocksRun
          runList (parser depth) (.block index) list
            { c with host := { c.host with blocks, blocksRun := index + 1 } }
      parseComment := fun c =>
        match c.host.comments with
        | [] => c.inlineComment
        | list :: comments =>
          let index := c.host.commentsRun
          runList (parser depth) (.comment index) list
            { c with host := { c.host with comments, commentsRun := index + 1 } }
      patience := remaining }

end Script

/-- The code parser that follows the script from its beginning. -/
def EmbeddedCode.scripted (script : Script) : EmbeddedCode Script := Script.parser script.remaining

end TemplateMarkup
