import TemplateMarkup.Toml.Number

/-!
# Dates and times

A date, a time of the day, or a date and a time, which may have an offset from universal time. A date
is one of the calendar; the seconds of a time may be left out, and may be 60.
-/

namespace TemplateMarkup.Toml

/-- The number that exactly `count` digits at the front spell, and what follows them. -/
def digits? (count : Nat) (cs : List Char) : Option (Nat × List Char) :=
  let front := cs.take count
  if front.length = count ∧ front.all Char.isDigit then some (numberOf 10 front, cs.drop count)
  else none

/-- What follows a character that must come first. -/
def after? (c : Char) : List Char → Option (List Char)
  | [] => none
  | d :: rest => if d = c then some rest else none

def daysInMonth (year month : Nat) : Nat :=
  if month = 2 then
    if year % 4 = 0 ∧ (year % 100 ≠ 0 ∨ year % 400 = 0) then 29 else 28
  else if month = 4 ∨ month = 6 ∨ month = 9 ∨ month = 11 then 30
  else 31

/-- What follows a date of the calendar. -/
def afterDate? (cs : List Char) : Option (List Char) := do
  let (year, cs) ← digits? 4 cs
  let (month, cs) ← digits? 2 (← after? '-' cs)
  let (day, cs) ← digits? 2 (← after? '-' cs)
  if 1 ≤ month ∧ month ≤ 12 ∧ 1 ≤ day ∧ day ≤ daysInMonth year month then pure cs else none

/-- What follows the seconds of a time, which may be left out and may have a fraction. -/
def afterSeconds? : List Char → Option (List Char)
  | ':' :: cs => do
    let (second, cs) ← digits? 2 cs
    if 60 < second then none
    else
      match cs with
      | '.' :: fraction =>
        if fraction.head?.any Char.isDigit then pure (fraction.dropWhile Char.isDigit) else none
      | cs => pure cs
  | cs => some cs

/-- What follows a time of the day. -/
def afterTime? (cs : List Char) : Option (List Char) := do
  let (hour, cs) ← digits? 2 cs
  let (minute, cs) ← digits? 2 (← after? ':' cs)
  if hour ≤ 23 ∧ minute ≤ 59 then afterSeconds? cs else none

/-- Whether the text is empty or an offset from universal time. -/
def isOffset : List Char → Bool
  | [] | ['Z'] | ['z'] => true
  | sign :: cs =>
    let offset : Option Bool := do
      let (hour, cs) ← digits? 2 cs
      let (minute, cs) ← digits? 2 (← after? ':' cs)
      pure (cs.isEmpty && hour ≤ 23 && minute ≤ 59)
    (sign == '+' || sign == '-') && offset.getD false

/-- Whether the text is a date, a time, or a date and a time with or without an offset. -/
def isDatetime (cs : List Char) : Bool :=
  match afterDate? cs with
  | some [] => true
  | some (separator :: rest) =>
    ['T', 't', ' '].contains separator && (afterTime? rest).any isOffset
  | none => afterTime? cs == some []

end TemplateMarkup.Toml
