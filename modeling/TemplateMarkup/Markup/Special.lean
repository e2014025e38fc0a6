import TemplateMarkup.Markup.Scan
import TemplateMarkup.Markup.TagName

/-!
# Comments, sections and instructions

`<!` and `<?` begin markup that is not a tag: comments, CDATA sections, declarations such as DOCTYPE,
and processing instructions. Each ends at a terminator of its own and none takes part in the nesting
of tags. Only comments have a node of their own; the others are literal text.

A comment must be well formed before it is one. Its body must not begin with `>` or `->`, must not
contain `<!--` or `--!>`, and must be closed. Because `<!-` before the closer reads as `<!--`, it must
not end with that either.
-/

namespace TemplateMarkup

/-! ## Recognising a comment -/

/-- Whether the tokens begin with `<!--`. -/
def opensComment : List Token → Bool
  | a :: b :: c :: _ => a.kind == .openAngle && b.kind == .bang && c.kind == .doubleHyphen
  | _ => false

/-- Whether the tokens begin with `>`, or with `->` where the hyphen is text. -/
def endsComment : List Token → Option Nat
  | a :: rest =>
    if a.kind = .closeAngle then some 1
    else if a.kind = .text ∧ a.text = ['-'] ∧ Token.kindAt rest 0 = .closeAngle then some 2
    else none
  | [] => none

/-- How many tokens `-->` or `--->` takes, if the tokens begin with one of them. -/
def commentCloser? : List Token → Option Nat
  | t :: rest => if t.kind = .doubleHyphen then (endsComment rest).map (· + 1) else none
  | [] => none

/-- Whether the tokens begin with `--!>`, which a comment may not contain. -/
def breaksComment : List Token → Bool
  | a :: b :: c :: _ => a.kind == .doubleHyphen && b.kind == .bang && c.kind == .closeAngle
  | _ => false

/-- Whether a comment's body, which goes on with these tokens, comes to a closer before anything that
it may not contain. -/
def closesComment : List Token → Bool
  | [] => false
  | t :: rest =>
    if opensComment (t :: rest) then false
    else if (commentCloser? (t :: rest)).isSome then true
    else if breaksComment (t :: rest) then false
    else closesComment rest

/-- Whether the tokens begin with a well-formed comment. -/
def commentAhead (tokens : List Token) : Bool :=
  opensComment tokens && (endsComment (tokens.drop 3)).isNone && closesComment (tokens.drop 3)

namespace Cursor

variable {σ : Type}

/-- Whether the `<` at the cursor begins something other than a tag. -/
def atSpecialTag (c : Cursor σ) : Bool :=
  match c.nth 1 with
  | .bang => !c.bangEscapeAt 1
  | .questionMark => true
  | _ => false

/-! ## Reading -/

/-- Scans to the closer of a comment and accepts it, at most `bound` times from one pair of hyphens
to the next. -/
def commentBodyFrom (code : EmbeddedCode σ) : Nat → Cursor σ → Bool × Cursor σ
  | 0, c => (false, c.fail .stalled)
  | bound + 1, c =>
    let c := c.skipTo code .doubleHyphen
    if c.atEnd then (false, c)
    else
      match commentCloser? c.ahead with
      | some length => (true, ((c.flush .literal).bumpN length).flush .literal)
      | none => commentBodyFrom code bound c.bump

/-- Reads a comment whose form is known to be good, and says whether its closer was found. -/
def htmlComment (c : Cursor σ) (code : EmbeddedCode σ) : Bool × Cursor σ :=
  let (m, c) := c.start
  let c := (c.bumpN 3).flush .literal
  let (closed, c) := commentBodyFrom code (c.unclaimed + 1) c
  (closed, c.complete m .commentBlock)

/-- Whether the cursor is behind the `<!` of a CDATA section. -/
def atCData (c : Cursor σ) : Bool :=
  c.at? .openBracket && c.nth 1 == .text && Text.sameIgnoringCase (c.nthText 1) "cdata".toList &&
    c.nth 2 == .openBracket

/-- Reads what begins with `<!`, and says whether its terminator was found. -/
def bangTag (c : Cursor σ) (code : EmbeddedCode σ) : Bool × Cursor σ :=
  if commentAhead c.ahead then c.htmlComment code
  else
    let c := c.bumpN 2
    let (closed, c) :=
      if c.atCData then (c.bumpN 3).acceptThrough code .closeBracket [.closeBracket, .closeAngle]
      else c.acceptThrough code .closeAngle []
    (closed, c.flush .literal)

/-- Reads a processing instruction, and says whether its terminator was found. -/
def instruction (c : Cursor σ) (code : EmbeddedCode σ) : Bool × Cursor σ :=
  let (closed, c) := (c.bumpN 2).acceptThrough code .questionMark [.closeAngle]
  (closed, c.flush .literal)

/-- Reads the special markup at the cursor, and says whether its terminator was found. -/
def specialTag (c : Cursor σ) (code : EmbeddedCode σ) : Bool × Cursor σ :=
  if c.nth 1 = .bang then c.bangTag code else c.instruction code

end Cursor

end TemplateMarkup
