/-!
Texts compared without regard to the case of ASCII letters.

Only the 26 letters of ASCII have two cases here: `É` and `é` differ, and so do `K` and the Kelvin
sign. The comparison is an equivalence (`sameIgnoringCase_iff`).
-/

namespace TemplateMarkup.Text

/-- The text with its ASCII letters in lower case. -/
def foldCase (cs : List Char) : List Char := cs.map Char.toLower

/-- Equality up to the case of ASCII letters. -/
def sameIgnoringCase (a b : List Char) : Bool := foldCase a == foldCase b

theorem sameIgnoringCase_iff {a b : List Char} :
    sameIgnoringCase a b ↔ foldCase a = foldCase b := by
  simp [sameIgnoringCase]

theorem sameIgnoringCase_comm (a b : List Char) :
    sameIgnoringCase a b = sameIgnoringCase b a := by
  simp [sameIgnoringCase, Bool.beq_comm]

/-- What cannot tell the cases of a letter apart cannot tell a character from its lower case. -/
theorem apply_toLower {α : Type} (f : Char → α) (hf : ∀ n : Fin 26,
    f (Char.ofNat (65 + n)).toLower = f (Char.ofNat (65 + n))) (c : Char) : f c.toLower = f c := by
  by_cases h : c.val ≥ 'A'.val ∧ c.val ≤ 'Z'.val
  · have hlow : 65 ≤ c.toNat := UInt32.le_iff_toNat_le.mp h.1
    have hhigh : c.toNat ≤ 90 := UInt32.le_iff_toNat_le.mp h.2
    have hc : Char.ofNat (65 + (⟨c.toNat - 65, by omega⟩ : Fin 26)) = c := by
      rw [show 65 + (c.toNat - 65) = c.toNat by omega, Char.ofNat_toNat]
    have hletter := hf ⟨c.toNat - 65, by omega⟩
    rwa [hc] at hletter
  · have hsame : c.toLower = c := dif_neg h
    rw [hsame]

end TemplateMarkup.Text
