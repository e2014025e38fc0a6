/-!
Sets of characters, kept as the sorted code points at which membership changes.

A table of `n` ranges is a list of `2 * n` numbers, and a character is in the set when an odd number
of changes lie at or below its code point.
-/

namespace TemplateMarkup.Text

/-- A set of code points: outside below the first number, inside from it on to the second, and so
on. -/
structure CharSet where
  changes : List Nat

namespace CharSet

/-- Whether a point is inside, when `inside` holds just below the first of the changes. -/
def memberAfter (inside : Bool) (point : Nat) : List Nat → Bool
  | [] => inside
  | change :: rest => if point < change then inside else memberAfter (!inside) point rest

theorem memberAfter_first {a b n : Nat} (rest : List Nat) (ha : a ≤ n) (hb : n < b) :
    memberAfter false n (a :: b :: rest) = true := by
  simp [memberAfter, Nat.not_lt.2 ha, hb]

theorem memberAfter_later {a b n : Nat} (rest : List Nat) (ha : a ≤ n) (hb : b ≤ n) :
    memberAfter false n (a :: b :: rest) = memberAfter false n rest := by
  simp [memberAfter, Nat.not_lt.2 ha, Nat.not_lt.2 hb]

def contains (s : CharSet) (c : Char) : Bool := memberAfter false c.toNat s.changes

end CharSet

end TemplateMarkup.Text
