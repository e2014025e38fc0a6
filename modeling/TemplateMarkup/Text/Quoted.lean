import TemplateMarkup.Text.Printable

/-!
Texts in double quotes, with escapes for whatever would not show.

The quotation mark, the backslash and four control characters have short escapes; any other
character that is not printable is written by its code point in lower-case hexadecimal.
-/

namespace TemplateMarkup.Text

/-- How the character is written between double quotes. -/
def escape (c : Char) : List Char :=
  match c with
  | '\x00' => ['\\', '0']
  | '\t' => ['\\', 't']
  | '\r' => ['\\', 'r']
  | '\n' => ['\\', 'n']
  | '\\' => ['\\', '\\']
  | '"' => ['\\', '"']
  | _ =>
    if isPrintable c then [c]
    else '\\' :: 'u' :: '\x7b' :: Nat.toDigits 16 c.toNat ++ ['\x7d']

/-- The text in double quotes. -/
def quote (cs : List Char) : List Char := '"' :: cs.flatMap escape ++ ['"']

end TemplateMarkup.Text
