import TemplateMarkup.Toml.Number

/-!
# TOML values and the tables they are gathered in

A document defines its tables piece by piece: by headers, by dotted keys, and by values in braces.
How a table came about decides what may still be added to it, so tables carry their origin. An
addition that TOML forbids, such as a key given twice, has no result.
-/

namespace TemplateMarkup.Toml

/-- How a table was defined. -/
inductive Origin where
  /-- By a header of its own, or as the document itself. -/
  | header
  /-- By the header of a table inside it. -/
  | implied
  /-- By a dotted key. -/
  | dotted
  /-- By a value in braces, which is complete. -/
  | inline
  deriving DecidableEq, Repr

inductive Value where
  | string (text : List Char)
  | number (n : Number)
  | boolean (value : Bool)
  /-- A date, a time or both, as it was written. -/
  | datetime (literal : List Char)
  /-- A value in brackets, which is complete. -/
  | array (elements : List Value)
  | table (origin : Origin) (entries : List (List Char × Value))
  /-- Tables that share a header in double brackets: the entries of the latest one, and the tables
  before it, the latest first. -/
  | tables (latest : List (List Char × Value)) (earlier : List Value)
  deriving Inhabited

/-- The entries of a table, in the order in which the keys first appear. -/
abbrev Entries := List (List Char × Value)

mutual

/-- Whether every number in the value can be used. -/
def Value.isUsable : Value → Bool
  | .number n => n.hasValue
  | .array elements => areUsable elements
  | .table _ entries => areEntriesUsable entries
  | .tables latest earlier => areEntriesUsable latest && areUsable earlier
  | .string _ | .boolean _ | .datetime _ => true

/-- Whether all of the values are usable. -/
def areUsable : List Value → Bool
  | [] => true
  | v :: vs => v.isUsable && areUsable vs

/-- Whether the values of all entries are usable. -/
def areEntriesUsable : List (List Char × Value) → Bool
  | [] => true
  | (_, v) :: es => v.isUsable && areEntriesUsable es

end

namespace Entries

/-- The value of a key. -/
def get? (es : Entries) (key : List Char) : Option Value := es.lookup key

/-- Whether the values of all other keys than the given ones are usable. -/
def othersUsable (known : List String) (es : Entries) : Bool :=
  es.all fun (key, v) => known.contains (String.ofList key) || v.isUsable

/-- Gives the key a value, in its old place or at the end. -/
def set (es : Entries) (key : List Char) (value : Value) : Entries :=
  match es with
  | [] => [(key, value)]
  | (k, v) :: rest => if k = key then (k, value) :: rest else (k, v) :: Entries.set rest key value

/-- Adds a key that is not there yet. -/
def add? (es : Entries) (key : List Char) (value : Value) : Option Entries :=
  match es.get? key with
  | some _ => none
  | none => some (es.set key value)

/-- Changes the table that the keys of a header lead to. Tables on the way that do not exist are
implied; of tables that share a header the way leads through the latest. -/
def modify (path : List (List Char)) (change : Entries → Option Entries) (es : Entries) :
    Option Entries :=
  match path with
  | [] => change es
  | key :: path =>
    match es.get? key with
    | none => do pure (es.set key (.table .implied (← modify path change [])))
    | some (.table .inline _) => none
    | some (.table origin inner) => do pure (es.set key (.table origin (← modify path change inner)))
    | some (.tables latest earlier) => do
      pure (es.set key (.tables (← modify path change latest) earlier))
    | some _ => none

/-- Adds a value under a dotted key, given as the keys before the last one and that one. The table
that the value lands in must be one that dotted keys made. -/
def addDotted (path : List (List Char)) (key : List Char) (value : Value) (es : Entries) :
    Option Entries :=
  match path with
  | [] => es.add? key value
  | first :: path =>
    let within (origin : Origin) (inner : Entries) : Option Entries :=
      if path.isEmpty ∧ origin ≠ .dotted then none else addDotted path key value inner
    match es.get? first with
    | none => do pure (es.set first (.table .dotted (← within .dotted [])))
    | some (.table .dotted inner) => do
      pure (es.set first (.table .dotted (← within .dotted inner)))
    | some (.table .implied inner) => do
      pure (es.set first (.table .implied (← within .implied inner)))
    | some (.tables latest earlier) => do
      pure (es.set first (.tables (← within .header latest) earlier))
    | some _ => none

/-- Opens the table of a header: a new one, or one that so far is only implied. -/
def openTable (key : List Char) (es : Entries) : Option Entries :=
  match es.get? key with
  | none => some (es.set key (.table .header []))
  | some (.table .implied inner) => some (es.set key (.table .header inner))
  | some _ => none

/-- Opens one more of the tables that share a header. -/
def openTables (key : List Char) (es : Entries) : Option Entries :=
  match es.get? key with
  | none => some (es.set key (.tables [] []))
  | some (.tables latest earlier) =>
    some (es.set key (.tables [] (.table .header latest :: earlier)))
  | some _ => none

end Entries

end TemplateMarkup.Toml
