import TemplateMarkup.Text.Ascii

/-!
What a host sets before a parse, and what a parse keeps in mind while it runs.
-/

namespace TemplateMarkup

/-- The settings of a parser. -/
structure Options where
  /-- For editors: whitespace after a block that ended cleanly stays with the host. -/
  designTime : Bool := false
  /-- The name of the element whose tags only switch between markup and code. -/
  textTagName : String := "text"
  /-- The name of the element whose body is opaque. -/
  scriptTagName : String := "script"
  /-- The `type` that makes a script's body ordinary markup. -/
  htmlScriptType : String := "text/html"
  /-- The names of the elements that have neither content nor an end tag. -/
  voidElements : List String :=
    ["area", "base", "br", "col", "command", "embed", "hr", "img", "input", "keygen", "link",
     "meta", "param", "source", "track", "wbr"]
  deriving DecidableEq, Repr, Inhabited

namespace Options

def isVoidElement (o : Options) (name : List Char) : Bool :=
  o.voidElements.any fun void => Text.sameIgnoringCase void.toList name

def isTextTag (o : Options) (name : List Char) : Bool :=
  Text.sameIgnoringCase name o.textTagName.toList

def isScriptTag (o : Options) (name : List Char) : Bool :=
  Text.sameIgnoringCase name o.scriptTagName.toList

end Options

/-- A pair of texts that bound markup inside a host's code, such as its braces. -/
structure Nesting where
  opener : String
  closer : String
  caseSensitive : Bool := false
  deriving DecidableEq, Repr, Inhabited

/-- The state of one parse that the markup and the embedded-code parser share. -/
structure Context where
  options : Options := {}
  /-- Whether nesting sequences are compared with their case. -/
  caseSensitive : Bool := false
  /-- Set while single-line markup is read, for the code parser to see. -/
  whitespaceSignificant : Bool := false
  /-- Set by the code parser: the line ending that comes next is not to be rendered. -/
  ephemeralLineEnding : Bool := false
  deriving DecidableEq, Repr, Inhabited

end TemplateMarkup
