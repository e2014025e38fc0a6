import TemplateMarkup.Text.CharSet

/-!
Blank characters in the sense of the Unicode property White_Space, and texts freed of them at both
ends.

Every character that the core library calls whitespace is blank: `isBlank_of_isWhitespace`.
-/

namespace TemplateMarkup.Text

/-- The property White_Space. -/
def whiteSpace : CharSet :=
  ⟨[0x9, 0xe, 0x20, 0x21, 0x85, 0x86, 0xa0, 0xa1, 0x1680, 0x1681, 0x2000, 0x200b, 0x2028, 0x202a,
    0x202f, 0x2030, 0x205f, 0x2060, 0x3000, 0x3001]⟩

def isBlank (c : Char) : Bool := whiteSpace.contains c

/-- The text without the blanks it begins and ends with. -/
def trim (cs : List Char) : List Char :=
  ((cs.dropWhile isBlank).reverse.dropWhile isBlank).reverse

theorem isBlank_of_isWhitespace {c : Char} (h : c.isWhitespace) : isBlank c := by
  simp only [Char.isWhitespace, Bool.or_eq_true, decide_eq_true_eq] at h
  rcases h with ((rfl | rfl) | rfl) | rfl <;> decide

end TemplateMarkup.Text
