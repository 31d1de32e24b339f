/-
  Dates and times of day in a TOML document.  Only their form matters here: a
  date of the calendar, a time of day with an optional fraction of a second, or
  both with a letter T between them and an optional offset from universal time.

  * `isDate`, `isTime`, `isMoment`: whether a text is one.
-/
import Apportion.Decimal.Numeral

namespace Apportion

namespace Toml

namespace Moment

/-- Reads two digits that write a number from `low` to `high`. -/
def two? (low high : Nat) : List Char → Option (Nat × List Char)
  | a :: b :: rest =>
    match Decimal.natural? [a, b] with
    | some n => if low ≤ n ∧ n ≤ high then some (n, rest) else none
    | none => none
  | _ => none

/-- The number of days of a month. -/
def daysIn (year month : Nat) : Nat :=
  if month = 2 then
    if year % 4 = 0 ∧ (year % 100 ≠ 0 ∨ year % 400 = 0) then 29 else 28
  else if month = 4 ∨ month = 6 ∨ month = 9 ∨ month = 11 then 30
  else 31

/-- Skips a character. -/
def skip? (c : Char) : List Char → Option (List Char)
  | d :: rest => if d = c then some rest else none
  | [] => none

/-- What follows a date. -/
def afterDate? : List Char → Option (List Char)
  | a :: b :: c :: d :: rest => do
    let year ← Decimal.natural? [a, b, c, d]
    let rest ← skip? '-' rest
    let (month, rest) ← two? 1 12 rest
    let rest ← skip? '-' rest
    let (_, rest) ← two? 1 (daysIn year month) rest
    return rest
  | _ => none

/-- What follows a fraction of a second, if there is one. -/
def afterFraction? : List Char → Option (List Char)
  | '.' :: digit :: rest =>
    if Decimal.isDigit digit then some (rest.dropWhile Decimal.isDigit) else none
  | ['.'] => none
  | rest => some rest

/-- What follows a time of day. -/
def afterTime? (cs : List Char) : Option (List Char) := do
  let (_, rest) ← two? 0 23 cs
  let rest ← skip? ':' rest
  let (_, rest) ← two? 0 59 rest
  let rest ← skip? ':' rest
  let (_, rest) ← two? 0 60 rest
  afterFraction? rest

/-- Whether a text is an offset from universal time, or empty. -/
def isOffset : List Char → Bool
  | [] => true
  | [c] => c = 'Z' || c = 'z'
  | c :: rest =>
    (c = '+' || c = '-') &&
      (do
        let (_, rest) ← two? 0 23 rest
        let rest ← skip? ':' rest
        let (_, rest) ← two? 0 59 rest
        return rest) = some []

/-- Whether a text is a date. -/
def isDate (cs : List Char) : Bool := afterDate? cs = some []

/-- Whether a text is a time of day with an optional offset. -/
def isTime (cs : List Char) : Bool :=
  match afterTime? cs with
  | some rest => isOffset rest
  | none => false

/-- Whether a text is a date, a time of day, or a date and a time joined by a letter T. -/
def isMoment (cs : List Char) : Bool :=
  isDate cs || afterTime? cs = some [] ||
    match afterDate? cs with
    | some (c :: rest) => (c = 'T' || c = 't') && isTime rest
    | _ => false

end Moment

end Toml

end Apportion
