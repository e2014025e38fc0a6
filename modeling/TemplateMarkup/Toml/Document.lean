import TemplateMarkup.Toml.Quoted
import TemplateMarkup.Toml.Scalar

/-!
# Documents

A document is a sequence of lines: keys with values, headers that say which table the keys after them
belong to, comments and empty lines. `read` gives its entries, or nothing if anything in it is not
TOML.

Every reader takes the text and returns what it read with the text behind it.
-/

namespace TemplateMarkup.Toml

/-- How deep brackets and braces may be nested, and how many parts a key may have. -/
def depthLimit : Nat := 80

/-! ## Between values -/

def skipBlanks (cs : List Char) : List Char := cs.dropWhile isBlank

/-- Skips blanks, line endings and comments. -/
def skipGap (inComment : Bool) : List Char → Option (List Char)
  | [] => some []
  | c :: rest =>
    if c = '\n' then skipGap false rest
    else if c = '\r' then if rest.head? = some '\n' then skipGap inComment rest else none
    else if inComment then if isBareControl c then none else skipGap true rest
    else if isBlank c then skipGap false rest
    else if c = '#' then skipGap true rest
    else some (c :: rest)

/-- Skips what may follow on a line that is complete, with the line ending. -/
def endLine (cs : List Char) : Option (List Char) :=
  match skipBlanks cs with
  | [] => some []
  | '\n' :: rest => some rest
  | '\r' :: '\n' :: rest => some rest
  | '#' :: rest => skipGap true rest
  | _ => none

/-! ## Keys -/

def isBareKeyChar (c : Char) : Bool := c.isAlphanum || c == '-' || c == '_'

/-- Reads one key, bare or in quotes. -/
def readKey (cs : List Char) : Option (List Char × List Char) :=
  match cs.takeWhile isBareKeyChar with
  | [] => readLineString cs
  | key => some (key, cs.drop key.length)

/-- Reads a key with dots: the parts before the last one, and that one. The number bounds how many
parts there can be. -/
def readDottedKey : Nat → List Char → Option ((List (List Char) × List Char) × List Char)
  | 0, _ => none
  | bound + 1, cs => do
    let (key, rest) ← readKey cs
    match skipBlanks rest with
    | '.' :: more =>
      let ((path, last), rest) ← readDottedKey bound (skipBlanks more)
      pure ((key :: path, last), rest)
    | rest => pure (([], key), rest)

/-! ## Values -/

mutual

/-- Reads a value that may nest `depth` deep. The first number bounds the size of what it reads. -/
def readValue : Nat → Nat → List Char → Option (Value × List Char)
  | 0, _, _ => none
  | bound + 1, depth, cs =>
    match depth, cs with
    | depth + 1, '[' :: rest => do
      let (elements, rest) ← readElements bound depth (← skipGap false rest)
      pure (.array elements, rest)
    | depth + 1, '\x7b' :: rest => do
      let (entries, rest) ← readPairs bound depth [] (← skipGap false rest)
      pure (.table .inline entries, rest)
    | _, '"' :: _ | _, '\'' :: _ => (readString cs).map fun (text, rest) => (.string text, rest)
    | _, _ => readScalar cs

/-- Reads the elements of an array through its closing bracket. -/
def readElements : Nat → Nat → List Char → Option (List Value × List Char)
  | 0, _, _ => none
  | bound + 1, depth, cs =>
    match cs with
    | ']' :: rest => some ([], rest)
    | cs => do
      let (value, rest) ← readValue bound depth cs
      match ← skipGap false rest with
      | ',' :: rest =>
        let (values, rest) ← readElements bound depth (← skipGap false rest)
        pure (value :: values, rest)
      | ']' :: rest => pure ([value], rest)
      | _ => none

/-- Reads the entries of a table in braces through its closing brace. -/
def readPairs : Nat → Nat → Entries → List Char → Option (Entries × List Char)
  | 0, _, _, _ => none
  | bound + 1, depth, es, cs =>
    match cs with
    | '\x7d' :: rest => some (es, rest)
    | cs => do
      let (es, rest) ← readPair bound depth es cs
      match ← skipGap false rest with
      | ',' :: rest => readPairs bound depth es (← skipGap false rest)
      | '\x7d' :: rest => pure (es, rest)
      | _ => none

/-- Reads a key and its value in braces, and adds them to the entries. Lines may end on either side of
the equals sign. -/
def readPair : Nat → Nat → Entries → List Char → Option (Entries × List Char)
  | 0, _, _, _ => none
  | bound + 1, depth, es, cs => do
    let ((path, key), rest) ← readDottedKey depthLimit cs
    let rest ← after? '=' (← skipGap false rest)
    let (value, rest) ← readValue bound depth (← skipGap false rest)
    pure (← es.addDotted path key value, rest)

end

/-! ## Lines -/

/-- The entries of a document so far, and the keys of the header that its next lines belong to. -/
structure Document where
  entries : Entries := []
  header : List (List Char) := []

namespace Document

/-- Reads the line of a header from behind its opening brackets, and opens its table. -/
def readHeader (d : Document) (doubled : Bool) (cs : List Char) :
    Option (Document × List Char) := do
  let ((path, key), rest) ← readDottedKey depthLimit (skipBlanks cs)
  let rest ← after? ']' (skipBlanks rest)
  let rest ← if doubled then after? ']' rest else pure rest
  let open? := if doubled then Entries.openTables key else Entries.openTable key
  pure (⟨← d.entries.modify path open?, path ++ [key]⟩, ← endLine rest)

/-- Reads a line with a key and a value. -/
def readEntry (bound : Nat) (d : Document) (cs : List Char) : Option (Document × List Char) := do
  let ((path, key), rest) ← readDottedKey depthLimit cs
  let rest ← after? '=' (skipBlanks rest)
  let (value, rest) ← readValue bound depthLimit (skipBlanks rest)
  pure ({ d with entries := ← d.entries.modify d.header (·.addDotted path key value) },
    ← endLine rest)

/-- Reads the rest of the document, at most `bound` lines. -/
def readLines : Nat → Document → List Char → Option Entries
  | 0, _, _ => none
  | bound + 1, d, cs => do
    match ← skipGap false cs with
    | [] => pure d.entries
    | '[' :: '[' :: rest =>
      let (d, rest) ← d.readHeader true rest
      readLines bound d rest
    | '[' :: rest =>
      let (d, rest) ← d.readHeader false rest
      readLines bound d rest
    | cs =>
      let (d, rest) ← d.readEntry bound cs
      readLines bound d rest

end Document

/-- The entries of a document. A byte order mark in front of it does not count. -/
def read (source : List Char) : Option Entries :=
  let source := if source.head? = some '\ufeff' then source.drop 1 else source
  Document.readLines (source.length + 1) {} source

/-! ## Writing -/

def writeBoolean (b : Bool) : List Char := if b then "true".toList else "false".toList

/-- A list of strings. Two or more stand on lines of their own, each followed by a comma. -/
def writeStrings : List (List Char) → List Char
  | [] => ['[', ']']
  | [s] => '[' :: writeString s ++ [']']
  | ss => '[' :: '\n' :: ss.flatMap (fun s => "    ".toList ++ writeString s ++ [',', '\n']) ++ [']']

/-- A line with a bare key and a value. -/
def writeEntry (key : String) (value : List Char) : List Char :=
  key.toList ++ " = ".toList ++ value ++ ['\n']

/-- The line of a table's header. -/
def writeHeader (key : String) : List Char := '[' :: key.toList ++ [']', '\n']

end TemplateMarkup.Toml
