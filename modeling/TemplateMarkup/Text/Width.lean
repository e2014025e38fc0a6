/-!
Widths of texts in UTF-8 bytes, the unit of every offset and range of this library.

`charCount?` turns a byte offset into a number of characters and fails inside a character; it
inverts the width of a beginning of the text (`charCount?_take`).
-/

namespace TemplateMarkup.Text

/-- The number of bytes of the text in UTF-8. -/
def width : List Char → Nat
  | [] => 0
  | c :: cs => c.utf8Size + width cs

/-- How many characters fill exactly the first `bytes` bytes, if a character ends there. -/
def charCount? : Nat → List Char → Option Nat
  | 0, _ => some 0
  | _ + 1, [] => none
  | bytes + 1, c :: cs =>
    if c.utf8Size ≤ bytes + 1 then (charCount? (bytes + 1 - c.utf8Size) cs).map (· + 1) else none

@[simp] theorem width_append (a b : List Char) : width (a ++ b) = width a + width b := by
  induction a with
  | nil => simp [width]
  | cons c cs ih => simp [width, ih, Nat.add_assoc]

theorem length_le_width (cs : List Char) : cs.length ≤ width cs := by
  induction cs with
  | nil => simp [width]
  | cons c cs ih =>
    have := c.utf8Size_pos
    simp only [List.length_cons, width]
    omega

/-- The width of the first `k` characters is the offset of the character after them. -/
theorem charCount?_take (cs : List Char) {k : Nat} (h : k ≤ cs.length) :
    charCount? (width (cs.take k)) cs = some k := by
  induction k generalizing cs with
  | zero => simp [width, charCount?]
  | succ k ih =>
    cases cs with
    | nil => simp at h
    | cons c cs =>
      have hpos := c.utf8Size_pos
      obtain ⟨n, hn⟩ : ∃ n, c.utf8Size + width (cs.take k) = n + 1 :=
        ⟨c.utf8Size + width (cs.take k) - 1, by omega⟩
      have hrest : n + 1 - c.utf8Size = width (cs.take k) := by omega
      simp only [List.take_succ_cons, width, hn, charCount?, hrest]
      simp only [List.length_cons, Nat.add_le_add_iff_right] at h
      simp [ih cs h, show c.utf8Size ≤ n + 1 by omega]

end TemplateMarkup.Text
