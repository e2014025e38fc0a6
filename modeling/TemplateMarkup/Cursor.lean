import TemplateMarkup.Diagnostic
import TemplateMarkup.Event
import TemplateMarkup.Options
import TemplateMarkup.Token

/-!
# The cursor: a parse in progress

A cursor stands between two tokens of the source and keeps what the parse has produced so far. Tokens
pass it in three steps. They are *read*, when the cursor moves past them and holds them; *accepted*,
when they are claimed for the tree; and *flushed*, when they become leaves, mostly inside a node of
literal text. Held tokens can be put back, accepted ones cannot.

The tokens are kept in four piles, so that the order of the source, and with it every offset, is
visible in the data: `flushed`, `pending` and `held` with the latest token first, `ahead` with the
next token first. An operation moves tokens from pile to pile and never drops one.

An operation that cannot be carried out leaves a `Fault` behind, and the first fault stays. A parse
that ends with a fault has no result.
-/

namespace TemplateMarkup

/-- Why a parse has no result. -/
inductive Fault where
  /-- Tokens beyond the end of the source were accepted. -/
  | acceptedPastEnd
  /-- A node was completed whose placeholder is gone. -/
  | placeholderLost
  /-- A diagnostic's range ends before it starts. -/
  | rangeReversed
  /-- A nesting sequence was closed where none was open. -/
  | depthUnderflow
  /-- The embedded-code parser kept a scan from moving on for longer than it may. -/
  | stalled
  /-- The events of the parse are not those of one tree. -/
  | unbalanced
  deriving DecidableEq, Repr

/-- The place of a node that is started and not yet completed: the index of its placeholder among
the events. -/
structure Marker where
  index : Nat
  deriving DecidableEq, Repr

/-- The state of a parse. The type `σ` is that of whatever the embedded-code parser keeps from call
to call. -/
structure Cursor (σ : Type) where
  /-- The tokens that are leaves already, the latest first. -/
  flushed : List Token := []
  /-- The tokens accepted and not flushed, the latest first. -/
  pending : List Token := []
  /-- The tokens read and not accepted, the latest first. -/
  held : List Token := []
  /-- The tokens not read. -/
  ahead : List Token
  /-- How far the cursor was moved beyond the end of the source. -/
  overrun : Nat := 0
  events : Array Event := #[]
  diagnostics : Array Diagnostic := #[]
  /-- The kind of the node finished last. -/
  lastNode : Option Kind := none
  context : Context
  host : σ
  fault : Option Fault := none

namespace Cursor

variable {σ : Type}

/-! ## What the cursor sees -/

/-- All tokens of the source, split as the parse has split them. -/
def tokens (c : Cursor σ) : List Token :=
  c.flushed.reverse ++ c.pending.reverse ++ c.held.reverse ++ c.ahead

/-- The number of tokens flushed. -/
def emitted (c : Cursor σ) : Nat := c.flushed.length

/-- The number of tokens accepted, the flushed ones included. -/
def accepted (c : Cursor σ) : Nat := c.flushed.length + c.pending.length

/-- The index of the next token. -/
def position (c : Cursor σ) : Nat := c.accepted + c.held.length + c.overrun

def atEnd (c : Cursor σ) : Bool := c.ahead.isEmpty

/-- The kind of the token that is `n` tokens ahead. -/
def nth (c : Cursor σ) (n : Nat) : Kind := Token.kindAt c.ahead n

/-- The text of the token that is `n` tokens ahead. -/
def nthText (c : Cursor σ) (n : Nat) : List Char := Token.textAt c.ahead n

/-- The offset of the token that is `n` tokens ahead; past the last token, the end of the source. -/
def nthStart (c : Cursor σ) (n : Nat) : Nat :=
  Token.widthOf c.flushed + Token.widthOf c.pending + Token.widthOf c.held +
    Token.widthOf (c.ahead.take n)

/-- The kind of the next token. -/
def current (c : Cursor σ) : Kind := c.nth 0

/-- The text of the next token. -/
def currentText (c : Cursor σ) : List Char := c.nthText 0

/-- The offset of the next token. -/
def offset (c : Cursor σ) : Nat := c.nthStart 0

/-- Whether the next token has the kind. -/
def at? (c : Cursor σ) (kind : Kind) : Bool := c.current == kind

/-- The kind of the token before the cursor, if there is one. -/
def previous? (c : Cursor σ) : Option Kind :=
  (c.held ++ c.pending ++ c.flushed).head?.map Token.kind

/-- The kind of the token at an index into all tokens. -/
def kindAt (c : Cursor σ) (index : Nat) : Kind := Token.kindAt c.tokens index

/-- The text of the tokens from one index up to another. -/
def textBetween (c : Cursor σ) (start stop : Nat) : List Char :=
  Token.textOf ((c.tokens.take stop).drop start)

/-- How many tokens from the `n`-th ahead on satisfy the test without a break. -/
def runLength (c : Cursor σ) (test : Token → Bool) (n : Nat) : Nat :=
  ((c.ahead.drop n).takeWhile test).length

/-- The number of characters not accepted yet. Splitting a token does not change it. -/
def unclaimed (c : Cursor σ) : Nat :=
  (Token.textOf c.held).length + (Token.textOf c.ahead).length

/-- Whether accepted tokens wait to be flushed. -/
def hasPending (c : Cursor σ) : Bool := !c.pending.isEmpty

/-! ## Faults and diagnostics -/

/-- Records a fault, unless there is one. -/
def fail (c : Cursor σ) (fault : Fault) : Cursor σ := { c with fault := c.fault.or (some fault) }

/-- Reports a problem in a range of the source. -/
def report (c : Cursor σ) (problem : Problem) (range : Range) : Cursor σ :=
  let c := if range.stop < range.start then c.fail .rangeReversed else c
  { c with diagnostics := c.diagnostics.push ⟨problem, range⟩ }

/-! ## Reading and accepting -/

/-- Reads the next token and accepts it with everything read before it. -/
def bump (c : Cursor σ) : Cursor σ :=
  match c.ahead with
  | [] => c
  | t :: rest => { c with pending := t :: (c.held ++ c.pending), held := [], ahead := rest }

/-- Reads and accepts up to `n` tokens. -/
def bumpN (c : Cursor σ) : Nat → Cursor σ
  | 0 => c
  | n + 1 => c.bump.bumpN n

/-- Reads and accepts the tokens that satisfy the test, up to the first that does not. -/
def bumpWhile (c : Cursor σ) (test : Token → Bool) : Cursor σ := c.bumpN (c.runLength test 0)

/-- Accepts the next token if it has the kind, and says whether it had. -/
def eat (c : Cursor σ) (kind : Kind) : Bool × Cursor σ :=
  if c.at? kind then (true, c.bump) else (false, c)

/-- Reads the next token without accepting it. -/
def advance (c : Cursor σ) : Cursor σ :=
  match c.ahead with
  | [] => c
  | t :: rest => { c with held := t :: c.held, ahead := rest }

/-- Accepts everything read. -/
def acceptRead (c : Cursor σ) : Cursor σ :=
  let c := if c.overrun = 0 then c else c.fail .acceptedPastEnd
  { c with pending := c.held ++ c.pending, held := [] }

/-- Moves to an index, or to the first token not accepted if the index lies before it. -/
def rewind (c : Cursor σ) (index : Nat) : Cursor σ :=
  let line := c.held.reverse ++ c.ahead
  let read := index - c.accepted
  { c with
    held := (line.take read).reverse
    ahead := line.drop read
    overrun := read - line.length }

/-- Puts back everything read and not accepted. -/
def putBack (c : Cursor σ) : Cursor σ := c.rewind c.accepted

/-! ## Splitting a token -/

/-- Splits the next token after `count` characters; both parts keep its kind. Nothing happens unless
both have characters. -/
def splitAfter (c : Cursor σ) (count : Nat) : Cursor σ :=
  match c.ahead with
  | [] => c
  | t :: rest =>
    if 0 < count ∧ count < t.text.length then
      { c with ahead := ⟨t.kind, t.text.take count⟩ :: ⟨t.kind, t.text.drop count⟩ :: rest }
    else c

/-- Splits the next token at a byte, if a character boundary lies there and inside the token. -/
def split? (c : Cursor σ) (byte : Nat) : Option (Cursor σ) :=
  match Text.charCount? byte c.currentText with
  | some count =>
    if 0 < count ∧ count < c.currentText.length then some (c.splitAfter count) else none
  | none => none

/-! ## Producing events -/

/-- Makes the accepted tokens leaves of the open node. -/
def flushRaw (c : Cursor σ) : Cursor σ :=
  { c with
    flushed := c.pending ++ c.flushed
    pending := []
    events := c.events ++ c.pending.reverse.map fun t => Event.token t.kind 1 }

/-- Makes the accepted tokens a node of the kind, if there are any. -/
def flush (c : Cursor σ) (kind : Kind) : Cursor σ :=
  if c.pending.isEmpty then c
  else
    let c := { c with events := c.events.push (.start kind) }.flushRaw
    { c with events := c.events.push .finish, lastNode := some kind }

/-- Starts a node whose kind is decided later. What was accepted before lands in front of it. -/
def start (c : Cursor σ) : Marker × Cursor σ :=
  let c := c.flush .literal
  (⟨c.events.size⟩, { c with events := c.events.push .placeholder })

/-- Gives a started node its kind and closes it. -/
def complete (c : Cursor σ) (m : Marker) (kind : Kind) : Cursor σ :=
  let c := c.flush .literal
  if c.events[m.index]? = some .placeholder then
    { c with
      events := (c.events.setIfInBounds m.index (.start kind)).push .finish
      lastNode := some kind }
  else c.fail .placeholderLost

/-- Gives up a started node; what it has so far belongs to the node around it. -/
def abandon (c : Cursor σ) (m : Marker) : Cursor σ :=
  if m.index + 1 = c.events.size then
    if c.events[m.index]? = some .placeholder then { c with events := c.events.pop }
    else c.fail .placeholderLost
  else c

/-- Adds an empty leaf for a token that the source left out. -/
def missing (c : Cursor σ) (kind : Kind) : Cursor σ :=
  let c := c.flush .literal
  { c with events := c.events.push (.token kind 0) }

end Cursor

end TemplateMarkup
