import TemplateMarkup.Toml.Number

/-!
# Strings

A string is written in one of four styles: between one or three quotation marks, with escapes, or
between one or three apostrophes, without. Between three quotes it may run over several lines.

The writer takes the first style in which the text needs no escape, apart from tabs, and falls back
on escapes. The reader follows the text one character at a time, with a state for what the characters
before it have begun.
-/

namespace TemplateMarkup.Toml

/-- A style of writing strings. -/
structure QuoteStyle where
  quote : Char
  /-- Whether the quotes are tripled and line endings may occur. -/
  multiline : Bool
  /-- Whether a backslash begins an escape. -/
  escapes : Bool
  deriving DecidableEq, Repr

namespace QuoteStyle

def basic : QuoteStyle := ⟨'"', false, true⟩

def literal : QuoteStyle := ⟨'\'', false, false⟩

def multilineBasic : QuoteStyle := ⟨'"', true, true⟩

def multilineLiteral : QuoteStyle := ⟨'\'', true, false⟩

/-- The quotes at each end. -/
def delimiter (s : QuoteStyle) : List Char := List.replicate (if s.multiline then 3 else 1) s.quote

end QuoteStyle

/-- A control character other than a tab or a line feed: only an escape can write it. -/
def isBareControl (c : Char) : Bool :=
  (c.toNat < 0x20 && c != '\t' && c != '\n') || c.toNat == 0x7f

/-! ## Writing -/

/-- The length of the longest run of a character. -/
def longestRun (c : Char) (cs : List Char) : Nat :=
  (cs.foldl (fun (run, longest) d =>
    let run := if d = c then run + 1 else 0
    (run, max longest run)) (0, 0)).2

/-- The style that a text is written in. -/
def QuoteStyle.forText (cs : List Char) : QuoteStyle :=
  let controls := cs.any isBareControl
  let backslashes := cs.contains '\\'
  let lines := cs.contains '\n'
  let quotes := longestRun '"' cs
  let apostrophes := longestRun '\'' cs
  if !controls && !backslashes && !lines && quotes == 0 then basic
  else if !controls && !lines && apostrophes == 0 then literal
  else if !controls && !backslashes && quotes ≤ 2 then multilineBasic
  else if !controls && apostrophes ≤ 2 then multilineLiteral
  else if lines then multilineBasic
  else basic

/-- A digit of base sixteen in upper case. -/
def upperHexDigit (n : Nat) : Char := (Nat.digitChar n).toUpper

/-- The escape that writes a character by four digits of its code point. -/
def escapeByCode (c : Char) : List Char :=
  let n := c.toNat
  '\\' :: 'u' :: [n / 4096 % 16, n / 256 % 16, n / 16 % 16, n % 16].map upperHexDigit

/-- How a style with escapes writes a character behind `run` quotes in a row. -/
def writeChar (style : QuoteStyle) (run : Nat) (c : Char) : List Char :=
  match c with
  | '\x08' => ['\\', 'b']
  | '\t' => ['\\', 't']
  | '\n' => if style.multiline then ['\n'] else ['\\', 'n']
  | '\x0c' => ['\\', 'f']
  | '\r' => ['\\', 'r']
  | '"' => if run < (if style.multiline then 2 else 0) then ['"'] else ['\\', '"']
  | '\\' => ['\\', '\\']
  | _ => if isBareControl c then escapeByCode c else [c]

/-- The body of a string in a style with escapes, behind `run` quotes in a row. -/
def writeEscaped (style : QuoteStyle) (run : Nat) : List Char → List Char
  | [] => []
  | c :: rest =>
    let written := writeChar style run c
    written ++ writeEscaped style (if written = ['"'] then run + 1 else 0) rest

/-- The string as it is written. A body of several lines begins on a line of its own. -/
def writeString (cs : List Char) : List Char :=
  let style := QuoteStyle.forText cs
  let opening := if style.multiline && cs.contains '\n' then ['\n'] else []
  let body := if style.escapes then writeEscaped style 0 cs else cs
  style.delimiter ++ opening ++ body ++ style.delimiter

/-! ## Reading -/

/-- What the characters before the next one have begun. -/
inductive QuoteState where
  | plain
  /-- A backslash. -/
  | escape
  /-- A code point, of which so many digits are to come. -/
  | code (digits value : Nat)
  /-- A backslash and blanks behind it; whether a line ending was among them. -/
  | fold (ended : Bool)
  deriving DecidableEq, Repr

/-- What the next character does. -/
inductive QuoteAction where
  /-- It adds text to the string. -/
  | emit (text : List Char) (state : QuoteState)
  /-- It begins the end of the string: some last text, and what follows the string. -/
  | close (text rest : List Char)
  | refuse

/-- The end of a string, or a quote inside it. Up to two quotes directly before the closing three
belong to the string. -/
def QuoteAction.ofQuote (style : QuoteStyle) (rest : List Char) : QuoteAction :=
  if !style.multiline then close [] rest
  else
    let q := style.quote
    let run := (rest.take 4).takeWhile (· == q)
    if run.length < 2 then emit [q] .plain
    else close (run.drop 2) (rest.drop run.length)

/-- The effect of a character that no escape has begun. -/
def QuoteAction.ofPlain (style : QuoteStyle) (c : Char) (rest : List Char) : QuoteAction :=
  if c = style.quote then ofQuote style rest
  else if c = '\\' ∧ style.escapes then emit [] .escape
  else if c = '\n' then if style.multiline then emit ['\n'] .plain else refuse
  else if c = '\r' then
    if style.multiline ∧ rest.head? = some '\n' then emit ['\r'] .plain else refuse
  else if isBareControl c then refuse
  else emit [c] .plain

/-- The effect of the character behind a backslash. -/
def QuoteAction.ofEscape (style : QuoteStyle) (c : Char) (rest : List Char) : QuoteAction :=
  match c with
  | 'b' => emit ['\x08'] .plain
  | 't' => emit ['\t'] .plain
  | 'n' => emit ['\n'] .plain
  | 'f' => emit ['\x0c'] .plain
  | 'r' => emit ['\r'] .plain
  | 'e' => emit ['\x1b'] .plain
  | '"' => emit ['"'] .plain
  | '\\' => emit ['\\'] .plain
  | 'x' => emit [] (.code 2 0)
  | 'u' => emit [] (.code 4 0)
  | 'U' => emit [] (.code 8 0)
  | ' ' | '\t' => if style.multiline then emit [] (.fold false) else refuse
  | '\n' => if style.multiline then emit [] (.fold true) else refuse
  | '\r' =>
    if style.multiline ∧ rest.head? = some '\n' then emit [] (.fold false) else refuse
  | _ => refuse

/-- The effect of a digit of a code point. -/
def QuoteAction.ofDigit (digits value : Nat) (c : Char) : QuoteAction :=
  match hexDigit? c with
  | none => refuse
  | some d =>
    let value := value * 16 + d
    if 1 < digits then emit [] (.code (digits - 1) value)
    else if value.isValidChar then emit [Char.ofNat value] .plain
    else refuse

/-- The effect of a character behind a backslash that ends its line. -/
def QuoteAction.ofFold (style : QuoteStyle) (ended : Bool) (c : Char) (rest : List Char) :
    QuoteAction :=
  match c with
  | ' ' | '\t' => emit [] (.fold ended)
  | '\n' => emit [] (.fold true)
  | '\r' => if rest.head? = some '\n' then emit [] (.fold ended) else refuse
  | _ => if ended then ofPlain style c rest else refuse

/-- What the next character does in a state. -/
def QuoteState.next (style : QuoteStyle) (c : Char) (rest : List Char) :
    QuoteState → QuoteAction
  | plain => .ofPlain style c rest
  | escape => .ofEscape style c rest
  | code digits value => .ofDigit digits value c
  | fold ended => .ofFold style ended c rest

/-- Reads a string from behind its opening quotes. -/
def readBody (style : QuoteStyle) (state : QuoteState) :
    List Char → Option (List Char × List Char)
  | [] => none
  | c :: rest =>
    match state.next style c rest with
    | .emit text state => (readBody style state rest).map fun (body, rest) => (text ++ body, rest)
    | .close text rest => some (text, rest)
    | .refuse => none

/-- What follows a line ending directly behind the opening quotes, which does not count. -/
def dropFirstLineEnd : List Char → List Char
  | '\n' :: rest => rest
  | '\r' :: '\n' :: rest => rest
  | cs => cs

/-- Reads a string on one line. -/
def readLineString : List Char → Option (List Char × List Char)
  | '"' :: rest => readBody .basic .plain rest
  | '\'' :: rest => readBody .literal .plain rest
  | _ => none

/-- Reads a string in any style. -/
def readString : List Char → Option (List Char × List Char)
  | '"' :: '"' :: '"' :: rest => readBody .multilineBasic .plain (dropFirstLineEnd rest)
  | '\'' :: '\'' :: '\'' :: rest => readBody .multilineLiteral .plain (dropFirstLineEnd rest)
  | cs => readLineString cs

end TemplateMarkup.Toml
