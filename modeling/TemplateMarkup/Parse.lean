import TemplateMarkup.Code.Expression
import TemplateMarkup.Markup.Block
import TemplateMarkup.Markup.Nested
import TemplateMarkup.Token.Lexer
import TemplateMarkup.Tree.Builder

/-!
# Parsing a template

A parse reads one unit of markup from the beginning of a source and returns its tree with the
diagnostics. The root of the tree has the unit as its first child; if the source goes on behind it,
the rest is the second.
-/

namespace TemplateMarkup

/-- The result of a parse. -/
structure Parse (σ : Type) where
  tree : Tree
  /-- In the order in which they were reported. -/
  diagnostics : List Diagnostic
  /-- What the embedded-code parser kept. -/
  host : σ

namespace Parse

variable {σ : Type}

/-- The source text of the unit of markup. -/
def markupText? (p : Parse σ) : Option (List Char) := (p.tree.child? .markupBlock).map Tree.text

/-- The source text left to the host. -/
def unparsedText? (p : Parse σ) : Option (List Char) := (p.tree.child? .unparsed).map Tree.text

end Parse

namespace Cursor

variable {σ : Type}

/-- The cursor at the beginning of a source. -/
def ofSource (source : List Char) (context : Context) (host : σ) : Cursor σ :=
  { ahead := Token.lex source, context, host }

/-- Leaves all tokens that are not accepted to the host. -/
def leaveRest (c : Cursor σ) : Cursor σ :=
  let c := c.putBack
  if c.atEnd then c
  else
    let (m, c) := c.start
    ((c.bumpN c.ahead.length).flushRaw).complete m .unparsed

/-- Reads by `entry` from the beginning of the source, without building the tree. -/
def run (c : Cursor σ) (entry : Cursor σ → Cursor σ) : Cursor σ :=
  let (m, c) := c.start
  ((entry c).flush .literal).leaveRest.complete m .root

/-- The result of a finished parse. -/
def result (c : Cursor σ) : Except Fault (Parse σ) :=
  match c.fault, Tree.ofEvents? c.tokens c.events.toList with
  | some fault, _ => .error fault
  | none, none => .error .unbalanced
  | none, some tree => .ok ⟨tree, c.diagnostics.toList, c.host⟩

end Cursor

/-- Parses one unit of markup: an element, or what follows an `@`. -/
def parseBlock {σ : Type} (options : Options) (code : EmbeddedCode σ) (host : σ) (source : String) :
    Except Fault (Parse σ) :=
  ((Cursor.ofSource source.toList { options } host).run (·.block code)).result

/-- Parses the markup up to the sequence that closes a nested region. -/
def parseNested {σ : Type} (options : Options) (code : EmbeddedCode σ) (host : σ)
    (nesting : Nesting) (source : String) : Except Fault (Parse σ) :=
  let context : Context := { options, caseSensitive := nesting.caseSensitive }
  ((Cursor.ofSource source.toList context host).run (·.nestedBlock code nesting)).result

/-- Parses one unit of markup with the default options. -/
def parse (source : String) : Except Fault (Parse Unit) := parseBlock {} .implicit () source

/-- Why a parser gives no result. -/
inductive ParseError where
  /-- The parser has no options. -/
  | optionsNotSet
  | fault (fault : Fault)
  deriving DecidableEq, Repr

/-- What the user is told about a misused parser. -/
def ParseError.message? : ParseError → Option String
  | optionsNotSet =>
    some "The parser context has not been set. Configure parse options before parsing."
  | fault _ => none

/-- A parser that a host sets up once. It can parse as soon as it has options. -/
structure Parser (σ : Type) where
  options? : Option Options := none
  code : EmbeddedCode σ
  host : σ

namespace Parser

variable {σ : Type}

/-- Parses a source: a nested region if nesting sequences are given, one unit of markup if not. -/
def parse (p : Parser σ) (nesting? : Option Nesting) (source : String) :
    Except ParseError (Parse σ) :=
  match p.options?, nesting? with
  | none, _ => .error .optionsNotSet
  | some options, none => (parseBlock options p.code p.host source).mapError .fault
  | some options, some nesting =>
    (parseNested options p.code p.host nesting source).mapError .fault

end Parser

end TemplateMarkup
