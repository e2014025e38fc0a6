/-!
The kinds of tokens and nodes that a template's syntax tree is made of.

Token kinds come first and node kinds after them, so a kind's number tells the two apart, and the
numbering is dense: `ofNumber?` inverts `number`.
-/

namespace TemplateMarkup

/-- What a leaf or an inner node of the tree stands for. -/
inductive Kind where
  /-- Spaces and tabs. -/
  | whitespace
  /-- One line ending: CR LF, LF or CR. -/
  | newline
  /-- A run of characters without a meaning of their own. -/
  | text
  | openAngle
  | closeAngle
  | slash
  | bang
  | questionMark
  /-- The `@` that switches from markup to code. -/
  | transition
  /-- The `@*` that opens an inline comment. -/
  | commentOpen
  /-- The `*@` that closes an inline comment. -/
  | commentClose
  | doubleHyphen
  | openBracket
  | closeBracket
  | equals
  | doubleQuote
  | singleQuote
  | colon
  /-- What lookahead sees past the last token; no token has this kind. -/
  | endOfInput
  | root
  /-- One unit of markup, as a host asks for it. -/
  | markupBlock
  /-- A start tag with the content it encloses, an end tag, or a tag that closes itself. -/
  | tagBlock
  | commentBlock
  /-- Literal markup. -/
  | literal
  /-- Literal markup that keeps its place in the source and is not rendered. -/
  | ephemeral
  /-- The border between markup and code, or a tag of the text element. -/
  | markupTransition
  /-- Text that only steers the parser. -/
  | metacode
  | attributeBlock
  | attributeValue
  /-- What the embedded-code parser claimed. -/
  | codeBlock
  | inlineComment
  /-- The tokens after the markup block, which belong to the host. -/
  | unparsed
  deriving DecidableEq, Repr, Inhabited

namespace Kind

/-- The kinds of tokens, the end-of-input mark included. -/
def tokens : List Kind :=
  [whitespace, newline, text, openAngle, closeAngle, slash, bang, questionMark, transition,
   commentOpen, commentClose, doubleHyphen, openBracket, closeBracket, equals, doubleQuote,
   singleQuote, colon, endOfInput]

/-- The kinds of inner nodes. -/
def nodes : List Kind :=
  [root, markupBlock, tagBlock, commentBlock, literal, ephemeral, markupTransition, metacode,
   attributeBlock, attributeValue, codeBlock, inlineComment, unparsed]

def all : List Kind := tokens ++ nodes

/-- The kind's place in `all`. -/
def number (k : Kind) : Nat := all.idxOf k

def ofNumber? (n : Nat) : Option Kind := all[n]?

def isToken (k : Kind) : Bool := tokens.contains k

def isNode (k : Kind) : Bool := !k.isToken

/-- Spacing: whitespace and line endings. -/
def isTrivia : Kind → Bool
  | whitespace | newline => true
  | _ => false

/-- The kind's printed name. -/
def name : Kind → String
  | whitespace => "WHITESPACE"
  | newline => "NEWLINE"
  | text => "TEXT"
  | openAngle => "OPEN_ANGLE"
  | closeAngle => "CLOSE_ANGLE"
  | slash => "FORWARD_SLASH"
  | bang => "BANG"
  | questionMark => "QUESTION_MARK"
  | transition => "TRANSITION"
  | commentOpen => "RAZOR_COMMENT_OPEN"
  | commentClose => "RAZOR_COMMENT_CLOSE"
  | doubleHyphen => "DOUBLE_HYPHEN"
  | openBracket => "LBRACKET"
  | closeBracket => "RBRACKET"
  | equals => "EQUALS"
  | doubleQuote => "DOUBLE_QUOTE"
  | singleQuote => "SINGLE_QUOTE"
  | colon => "COLON"
  | endOfInput => "EOF"
  | root => "ROOT"
  | markupBlock => "MARKUP_BLOCK"
  | tagBlock => "MARKUP_TAG_BLOCK"
  | commentBlock => "MARKUP_COMMENT_BLOCK"
  | literal => "MARKUP_TEXT_LITERAL"
  | ephemeral => "MARKUP_EPHEMERAL_LITERAL"
  | markupTransition => "MARKUP_TRANSITION"
  | metacode => "META_CODE"
  | attributeBlock => "ATTRIBUTE_BLOCK"
  | attributeValue => "ATTRIBUTE_VALUE"
  | codeBlock => "CODE_BLOCK"
  | inlineComment => "RAZOR_COMMENT"
  | unparsed => "UNPARSED"

def ofName? (s : String) : Option Kind := all.find? (·.name == s)

theorem ofNumber?_number (k : Kind) : ofNumber? k.number = some k := by cases k <;> rfl

theorem ofName?_name (k : Kind) : ofName? k.name = some k := by cases k <;> rfl

theorem name_injective {k l : Kind} (h : k.name = l.name) : k = l :=
  Option.some.inj (by rw [← ofName?_name k, h, ofName?_name])

end Kind

end TemplateMarkup
