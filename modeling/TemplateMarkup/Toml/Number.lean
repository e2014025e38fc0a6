/-!
# Numbers

A number is an integer of base ten, two, eight or sixteen, or a float. Underscores may group its
digits. Reading a document settles only which of these a number is; the digits of an integer behind
its first underscore, and the size of any number, count when the number is used. So a number is kept
as it is written, and `Number.hasValue` says whether it can be used.
-/

namespace TemplateMarkup.Toml

/-! ## Digits -/

/-- The value of a hexadecimal digit. -/
def hexDigit? (c : Char) : Option Nat :=
  if c.isDigit then some (c.toNat - '0'.toNat)
  else if 'a' ≤ c ∧ c ≤ 'f' then some (c.toNat - 'a'.toNat + 10)
  else if 'A' ≤ c ∧ c ≤ 'F' then some (c.toNat - 'A'.toNat + 10)
  else none

def isHexDigit (c : Char) : Bool := (hexDigit? c).isSome

def isDigitOf (base : Nat) (c : Char) : Bool := (hexDigit? c).any (· < base)

/-- The number that digits of a base spell, the most significant first. -/
def numberOf (base : Nat) (digits : List Char) : Nat :=
  digits.foldl (fun n c => n * base + (hexDigit? c).getD 0) 0

/-- A sign at the front, and what follows it. -/
def splitSign : List Char → List Char × List Char
  | '+' :: rest => (['+'], rest)
  | '-' :: rest => (['-'], rest)
  | cs => ([], cs)

/-- The text without its underscores, each of which must stand between two digits. A sign in front of
the text, for which `behindDigit` is set, does as well as a digit there. -/
def ungroup? (isDigit : Char → Bool) (behindDigit : Bool) : List Char → Option (List Char)
  | [] => some []
  | '_' :: rest =>
    if behindDigit && rest.head?.any isDigit then ungroup? isDigit false rest else none
  | c :: rest => (ungroup? isDigit (isDigit c) rest).map (c :: ·)

/-! ## Written forms -/

inductive Number where
  /-- An integer of a base. In base ten a sign may stand in front of the digits. -/
  | integer (base : Nat) (literal : List Char)
  /-- A number with a fraction or an exponent, an infinity, or the value that is no number. -/
  | float (literal : List Char)
  deriving DecidableEq, Repr

def isGroupedDigit (c : Char) : Bool := c.isDigit || c == '_'

/-- What follows a group of decimal digits and underscores with a digit in it. -/
def afterDigits? (cs : List Char) : Option (List Char) :=
  if (cs.takeWhile isGroupedDigit).any Char.isDigit then some (cs.dropWhile isGroupedDigit)
  else none

/-- What follows a fraction, if there is one. -/
def afterFraction? : List Char → Option (List Char)
  | '.' :: cs => afterDigits? cs
  | cs => some cs

/-- What follows an exponent, if there is one. -/
def afterExponent? : List Char → Option (List Char)
  | [] => some []
  | c :: cs => if c = 'e' ∨ c = 'E' then afterDigits? (splitSign cs).2 else some (c :: cs)

/-- Whether a text without a sign has the form of a float. No zero stands in front of its digits. -/
def isFloatForm (cs : List Char) : Bool :=
  let whole := cs.takeWhile isGroupedDigit
  (whole.head? != some '0' || whole.countP Char.isDigit == 1) &&
    (afterDigits? cs >>= afterFraction? >>= afterExponent?) == some []

/-- Whether a text without a sign has the form of an integer of base ten: digits up to its end or up
to the first underscore, and no zero in front of them. -/
def isIntegerForm (cs : List Char) : Bool :=
  let rest := cs.dropWhile Char.isDigit
  !cs.isEmpty && (rest.isEmpty || rest.head? == some '_') && !rest.contains ' ' &&
    (cs.head? != some '0' || cs.length == 1)

def isSpecialFloat (cs : List Char) : Bool := cs == "inf".toList || cs == "nan".toList

namespace Number

/-- An integer of a base other than ten, from behind the mark of its base. -/
def ofDigits? (base : Nat) (cs : List Char) : Option Number :=
  if cs.all fun c => isDigitOf base c || c == '_' then
    (ungroup? isHexDigit false cs).map (integer base)
  else none

/-- A float or an integer of base ten. -/
def ofDecimal? (cs : List Char) : Option Number :=
  let (sign, unsigned) := splitSign cs
  let ungrouped? (isDigit : Char → Bool) :=
    (ungroup? isDigit (!sign.isEmpty) unsigned).map (sign ++ ·)
  if isSpecialFloat unsigned then some (float cs)
  else if unsigned.any fun c => ['.', 'e', 'E'].contains c then
    if isFloatForm unsigned then (ungrouped? Char.isDigit).map float else none
  else if isIntegerForm unsigned then (ungrouped? isHexDigit).map (integer 10)
  else none

/-- The number that a text is the written form of. -/
def ofLiteral? : List Char → Option Number
  | '0' :: 'x' :: cs => ofDigits? 16 cs
  | '0' :: 'o' :: cs => ofDigits? 8 cs
  | '0' :: 'b' :: cs => ofDigits? 2 cs
  | cs => ofDecimal? cs

end Number

/-! ## Values -/

/-- The value of an integer, in the range of 128 bits with a sign or without. -/
def integerValue? (base : Nat) (literal : List Char) : Option Int :=
  let (sign, digits) := splitSign literal
  if digits.isEmpty || !digits.all (isDigitOf base) then none
  else
    let magnitude : Int := numberOf base digits
    let n := if sign = ['-'] then -magnitude else magnitude
    if -(Nat.pow 2 127 : Int) ≤ n ∧ n < (Nat.pow 2 128 : Int) then some n else none

/-- Whether `digits` times ten to the power of `exponent` is rounded to a finite double. -/
def isFinite (digits : List Char) (exponent : Int) : Bool :=
  let digits := digits.dropWhile (· == '0')
  let magnitude := digits.length + exponent
  let limit := Nat.pow 2 1024 - Nat.pow 2 970
  if digits.isEmpty || magnitude < 300 then true
  else if 400 < magnitude then false
  else
    let n := numberOf 10 digits
    if 0 ≤ exponent then n * Nat.pow 10 exponent.toNat < limit
    else n < limit * Nat.pow 10 (-exponent).toNat

/-- Whether a float is finite, or infinite in so many words. -/
def floatHasValue (literal : List Char) : Bool :=
  let (_, unsigned) := splitSign literal
  let mantissa := unsigned.takeWhile fun c => c != 'e' && c != 'E'
  let (sign, exponent) := splitSign (unsigned.drop (mantissa.length + 1))
  let whole := mantissa.takeWhile (· != '.')
  let fraction := mantissa.drop (whole.length + 1)
  let scale : Int := numberOf 10 exponent
  isSpecialFloat unsigned ||
    isFinite (whole ++ fraction) ((if sign = ['-'] then -scale else scale) - fraction.length)

/-- Whether the number can be used. -/
def Number.hasValue : Number → Bool
  | integer base literal => (integerValue? base literal).isSome
  | float literal => floatHasValue literal

end TemplateMarkup.Toml
