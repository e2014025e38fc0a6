import TemplateMarkup.Toml.Datetime
import TemplateMarkup.Toml.Value

/-!
# Values without quotes or brackets

Such a value is a truth value, a number, or a date. Its text goes on up to a character that means
something else between values, and takes in the blanks between words: a date and a time may be two.
-/

namespace TemplateMarkup.Toml

def isBlank (c : Char) : Bool := c == ' ' || c == '\t'

/-- Whether the character can be part of a word of a value without quotes. -/
def isWordChar (c : Char) : Bool := !("=,[]\x7b\x7d \t#\r\n".toList.contains c)

/-- Whether the text is blanks with another word of the same value behind them. -/
def isBeforeWord (cs : List Char) : Bool :=
  (cs.dropWhile isBlank).head?.any fun c => isWordChar c && !(['"', '\'', '.'].contains c)

/-- The text of the value at the front. -/
def scalarText : List Char → List Char
  | [] => []
  | c :: rest =>
    if isWordChar c || (isBlank c && isBeforeWord rest) then c :: scalarText rest else []

/-- The value that a text without quotes or brackets stands for. -/
def scalar? (cs : List Char) : Option Value :=
  if cs = "true".toList then some (.boolean true)
  else if cs = "false".toList then some (.boolean false)
  else if isDatetime cs then some (.datetime cs)
  else (Number.ofLiteral? cs).map .number

/-- Reads a value without quotes or brackets. -/
def readScalar (cs : List Char) : Option (Value × List Char) :=
  let text := scalarText cs
  (scalar? text).map (·, cs.drop text.length)

end TemplateMarkup.Toml
