/-
  Numbers, truth values and moments of a TOML document, each a word without
  blanks, except that a blank may stand between a date and a time.

  * `integer?`: decimal with an optional sign, or hexadecimal, octal or binary
    with `0x`, `0o` or `0b` in front; within 64 bits, signed.
  * `real?`: with a fraction, a power of ten or both, or `inf` or `nan`.
  Single underscores may stand between digits.
  * `read?` reads a word and says what it is.
-/
import Apportion.Decimal.Reading
import Apportion.Toml.Layout
import Apportion.Toml.Moment
import Apportion.Toml.Value

namespace Apportion

namespace Toml

namespace Scalar

/-- A character of a word. -/
def isWordChar (c : Char) : Bool :=
  c.isAlphanum || c = '_' || c = '+' || c = '-' || c = '.' || c = ':'

/-- One or more digits, without the single underscores between them. -/
def ungrouped? (isDigit : Char → Bool) : List Char → Option (List Char)
  | [] => none
  | c :: rest =>
    if isDigit c then
      match rest with
      | [] => some [c]
      | '_' :: rest => (ungrouped? isDigit rest).map (c :: ·)
      | rest => (ungrouped? isDigit rest).map (c :: ·)
    else none

/-- A text without the sign at its front, and whether that is a minus. -/
def unsigned : List Char → Bool × List Char
  | '-' :: cs => (true, cs)
  | '+' :: cs => (false, cs)
  | cs => (false, cs)

/-- The digits of a decimal number; a zero in front stands alone. -/
def wholeDigits? (cs : List Char) : Option (List Char) :=
  (ungrouped? Decimal.isDigit cs).filter fun digits => digits.head? ≠ some '0' ∨ digits.length = 1

/-- The value of a digit in base 36. -/
def digitValue (c : Char) : Nat :=
  if c.isDigit then c.toNat - '0'.toNat else c.toLower.toNat - 'a'.toNat + 10

/-- A digit of a base. -/
def isDigitOf (base : Nat) (c : Char) : Bool := c.isAlphanum && digitValue c < base

/-- The number that digits of a base write. -/
def valueIn (base : Nat) (digits : List Char) : Nat :=
  digits.foldl (fun n c => base * n + digitValue c) 0

/-- A number within 64 bits, signed. -/
def bounded? (n : Int) : Option Int := if -2 ^ 63 ≤ n ∧ n < 2 ^ 63 then some n else none

/-- The number that grouped digits of a base write. -/
def integerIn? (base : Nat) (cs : List Char) : Option Int :=
  match ungrouped? (isDigitOf base) cs with
  | some digits => bounded? (valueIn base digits)
  | none => none

/-- The integer that a word writes. -/
def integer? : List Char → Option Int
  | '0' :: 'x' :: cs => integerIn? 16 cs
  | '0' :: 'o' :: cs => integerIn? 8 cs
  | '0' :: 'b' :: cs => integerIn? 2 cs
  | cs =>
    let (negative, cs) := unsigned cs
    match wholeDigits? cs with
    | some digits =>
      let n : Int := Decimal.valueOf digits
      bounded? (if negative then -n else n)
    | none => none

/-- Whether a text is a power of ten: `e`, an optional sign and digits. -/
def isPower : List Char → Bool
  | c :: cs => (c = 'e' || c = 'E') && (ungrouped? Decimal.isDigit (unsigned cs).2).isSome
  | [] => false

/-- Whether a text is a fraction, a power of ten, or both. -/
def isFractional : List Char → Bool
  | '.' :: cs =>
    let isPart := fun c => Decimal.isDigit c || c = '_'
    (ungrouped? Decimal.isDigit (cs.takeWhile isPart)).isSome &&
      (let rest := cs.dropWhile isPart; rest = [] || isPower rest)
  | cs => isPower cs

/-- Whether a word is a number with a fraction or a power of ten. -/
def isReal (cs : List Char) : Bool :=
  let isPart := fun c => Decimal.isDigit c || c = '_'
  let cs := (unsigned cs).2
  (wholeDigits? (cs.takeWhile isPart)).isSome && isFractional (cs.dropWhile isPart)

/-- The real number that a word writes.  One too large for a double is refused. -/
def real? (cs : List Char) : Option Float :=
  let (negative, body) := unsigned cs
  if body = "inf".toList then some (Decimal.infinite negative)
  else if body = "nan".toList then some Decimal.notANumber
  else if isReal cs then
    (Decimal.double? (cs.filter (· ≠ '_'))).filter fun x => negative || !x.isInf
  else none

/-- What a word stands for. -/
def ofWord? (cs : List Char) : Option Value :=
  if cs = "true".toList then some (.boolean true)
  else if cs = "false".toList then some (.boolean false)
  else if Moment.isMoment cs then some .moment
  else
    match integer? cs with
    | some n => some (.integer n)
    | none => (real? cs).map .real

/-- Reads the time behind a date and a blank, if there is one. -/
def readTime? : List Char → Option (List Char)
  | ' ' :: c :: rest =>
    if Decimal.isDigit c then
      let word := (c :: rest).takeWhile isWordChar
      if Moment.isTime word then some ((c :: rest).dropWhile isWordChar) else none
    else some (' ' :: c :: rest)
  | cs => some cs

/-- Reads a word. -/
def read? : Reader Value := fun cs =>
  let word := cs.takeWhile isWordChar
  let rest := cs.dropWhile isWordChar
  if Moment.isDate word then (readTime? rest).map fun rest => (.moment, rest)
  else (ofWord? word).map fun v => (v, rest)

end Scalar

end Toml

end Apportion
