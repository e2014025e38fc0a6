import TemplateMarkup.Markup.TagName
import TemplateMarkup.Proofs.Progress

/-! # Offsets within the source

The offset of the cursor and the width of what lies ahead of it make up the
source. So a range lies in the source if it begins a few tokens ahead and spans
no more than the text behind them, as the range of a tag's name does. -/

namespace TemplateMarkup

theorem Text.utf8Size_toLower (c : Char) : c.toLower.utf8Size = c.utf8Size :=
  apply_toLower Char.utf8Size (by decide) c

theorem Text.width_foldCase (cs : List Char) : width (foldCase cs) = width cs := by
  induction cs with
  | nil => rfl
  | cons c cs ih =>
    rw [foldCase] at ih
    simp [foldCase, width, utf8Size_toLower, ih]

theorem Text.width_of_sameIgnoringCase {a b : List Char} (h : sameIgnoringCase a b = true) :
    width a = width b := by
  rw [← width_foldCase a, ← width_foldCase b, sameIgnoringCase_iff.mp h]

namespace Token

theorem widthOf_append (a b : List Token) : widthOf (a ++ b) = widthOf a + widthOf b := by
  rw [widthOf_eq, textOf_append, Text.width_append, ← widthOf_eq, ← widthOf_eq]

theorem widthOf_reverse (ts : List Token) : widthOf ts.reverse = widthOf ts := by
  induction ts with
  | nil => rfl
  | cons t ts ih =>
    rw [List.reverse_cons, widthOf_append, ih]
    simp only [widthOf]
    omega

theorem length_le_widthOf {ts : List Token} (h : ∀ t ∈ ts, t.text ≠ []) :
    ts.length ≤ widthOf ts := by
  induction ts with
  | nil => exact Nat.le_refl _
  | cons t ts ih =>
    have ht := List.length_pos_iff.mpr (h t (List.mem_cons_self ..))
    have hwidth := Text.length_le_width t.text
    have hts := ih fun u hu => h u (List.mem_cons_of_mem t hu)
    simp only [List.length_cons, widthOf, width]
    omega

theorem widthOf_takeWhile_le (test : Token → Bool) (ts : List Token) :
    widthOf (ts.takeWhile test) ≤ widthOf ts := by
  have hsplit := widthOf_append (ts.takeWhile test) (ts.dropWhile test)
  rw [List.takeWhile_append_dropWhile] at hsplit
  omega

end Token

namespace Cursor

variable {σ : Type} {strict : Prop} {base : List Event} {ms : List Marker} {c d : Cursor σ} {n : Nat}

/-- The offset counts what was read, so what is read and what is not make up the source. -/
theorem offset_add_ahead (c : Cursor σ) :
    c.offset + Token.widthOf c.ahead = Token.widthOf c.tokens := by
  simp only [tokens, Token.widthOf_append, Token.widthOf_reverse, offset, nthStart, List.take_zero,
    Token.widthOf]
  omega

theorem width_text (c : Cursor σ) : Text.width c.text = Token.widthOf c.tokens :=
  (Token.widthOf_eq _).symm

/-- Where as much of the same source lies ahead, the offset is the same. -/
theorem offset_congr (htext : d.text = c.text) (hahead : d.ahead = c.ahead) :
    d.offset = c.offset := by
  have hc := offset_add_ahead c
  have hd := offset_add_ahead d
  rw [← width_text, htext, hahead] at hd
  rw [← width_text] at hc
  omega

theorem tagNameAt_of_drop {k n : Nat} (h : d.ahead.drop k = c.ahead.drop n) :
    d.tagNameAt k = c.tagNameAt n := by
  have hkind (i : Nat) : d.nth (k + i) = c.nth (n + i) := by
    have hd : d.ahead[k + i]? = c.ahead[n + i]? := by
      rw [← List.getElem?_drop, h, List.getElem?_drop]
    simp [nth, Token.kindAt, hd]
  have htext : d.nthText (k + 1) = c.nthText (n + 1) := by
    have hd : d.ahead[k + 1]? = c.ahead[n + 1]? := by
      rw [← List.getElem?_drop, h, List.getElem?_drop]
    simp [nthText, Token.textAt, hd]
  have hrun : d.textRunAt k = c.textRunAt n := by rw [textRunAt, h, textRunAt]
  have hrun' : d.textRunAt (k + 1) = c.textRunAt (n + 1) := by
    rw [textRunAt, ← List.drop_drop, h, List.drop_drop, textRunAt]
  have hbang : d.bangEscapeAt k = c.bangEscapeAt n := by
    rw [bangEscapeAt, bangEscapeAt, hkind 1, htext, show d.nth k = c.nth n from hkind 0]
  rw [tagNameAt, tagNameAt, hbang, hrun, hrun']

theorem lt_length_of_nth (h : c.nth n ≠ .endOfInput) : n < c.ahead.length := by
  refine Nat.lt_of_not_le fun hle => h ?_
  simp [nth, Token.kindAt, List.getElem?_eq_none hle]

namespace Sound

/-- A text among the tokens behind the next `n` ends within the source. -/
theorem offset_add_le (h : Sound strict base ms c) (hn : n ≤ c.ahead.length) {width : Nat}
    (hw : width ≤ Token.widthOf (c.ahead.drop n)) : c.offset + n + width ≤ Text.width c.text := by
  have hahead := offset_add_ahead c
  have hsplit := Token.widthOf_append (c.ahead.take n) (c.ahead.drop n)
  rw [List.take_append_drop] at hsplit
  have hlength : n ≤ Token.widthOf (c.ahead.take n) := by
    have hne (t : Token) (ht : t ∈ c.ahead.take n) : t.text ≠ [] :=
      h.nonempty t (by simp [tokens, List.mem_of_mem_take ht])
    have hle := Token.length_le_widthOf hne
    rwa [List.length_take_of_le hn] at hle
  rw [width_text]
  omega

theorem offset_le (h : Sound strict base ms c) : c.offset ≤ Text.width c.text :=
  h.offset_add_le (Nat.zero_le _) (Nat.zero_le _)

theorem width_textRunAt (c : Cursor σ) (n : Nat) :
    Text.width (c.textRunAt n) ≤ Token.widthOf (c.ahead.drop n) := by
  rw [textRunAt, ← Token.widthOf_eq]
  exact Token.widthOf_takeWhile_le _ _

/-- Behind `n` tokens, the tag name that begins there ends within the source. -/
theorem tagName_le (h : Sound strict base ms c) (hn : n ≤ c.ahead.length) :
    c.offset + n + Text.width (c.tagNameAt n) ≤ Text.width c.text := by
  unfold tagNameAt
  split
  · next hbang =>
    -- the `!` is a token too, and no narrower than its character
    have hlt : n < c.ahead.length := by
      refine lt_length_of_nth fun hend => ?_
      simp [bangEscapeAt, hend] at hbang
    have hle := h.offset_add_le (n := n + 1) hlt (width_textRunAt c (n + 1))
    have hsize : Text.width ('!' :: c.textRunAt (n + 1)) = 1 + Text.width (c.textRunAt (n + 1)) := rfl
    omega
  · exact h.offset_add_le hn (width_textRunAt c n)

theorem currentText_le (h : Sound strict base ms c) :
    c.offset + Text.width c.currentText ≤ Text.width c.text := by
  have hle : Text.width c.currentText ≤ Token.widthOf c.ahead := by
    cases ha : c.ahead with
    | nil => simp [currentText, nthText, Token.textAt, ha, Text.width]
    | cons t rest =>
      rw [currentText_cons ha]
      exact Nat.le_add_right _ _
  exact h.offset_add_le (n := 0) (Nat.zero_le _) hle

end Sound

end Cursor

end TemplateMarkup
