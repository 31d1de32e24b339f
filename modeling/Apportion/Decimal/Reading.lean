/-
  Doubles read from text: an optional sign, then `inf`, `infinity` or `nan` in
  any case, or digits with an optional point among or around them and an
  optional power of ten.  At least one digit stands before the power of ten.

  * `double?` reads such a text, the whole of it.
-/
import Apportion.Decimal.Binary
import Apportion.Decimal.Numeral

namespace Apportion

namespace Decimal

/-- The number written by digits; none write zero. -/
def valueOf (digits : List Char) : Nat := (continue? 0 digits).getD 0

/-- The letters of a text, small. -/
def lowered (cs : List Char) : List Char := cs.map Char.toLower

/-- A power of ten behind a mantissa: nothing, or `e`, an optional sign and digits. -/
def exponent? : List Char → Option Int
  | [] => some 0
  | c :: cs =>
    if c = 'e' ∨ c = 'E' then
      match cs with
      | '-' :: digits => (natural? digits).map fun n => -(n : Int)
      | '+' :: digits => (natural? digits).map fun n => (n : Int)
      | digits => (natural? digits).map fun n => (n : Int)
    else none

/-- A number without a sign. -/
def magnitude? (negative : Bool) (cs : List Char) : Option Float :=
  let whole := cs.takeWhile isDigit
  let (fraction, rest) := match cs.dropWhile isDigit with
    | '.' :: cs => (cs.takeWhile isDigit, cs.dropWhile isDigit)
    | cs => ([], cs)
  if whole.isEmpty && fraction.isEmpty then none
  else
    (exponent? rest).map fun e =>
      ofScientific negative (valueOf (whole ++ fraction)) (e - fraction.length)

/-- Positive infinity, or negative infinity. -/
def infinite (negative : Bool) : Float :=
  Float.ofBits (UInt64.ofNat (infinityBits + if negative then 2 ^ 63 else 0))

/-- No number. -/
def notANumber : Float := Float.ofBits (UInt64.ofNat (infinityBits + 2 ^ 51))

/-- The double that a text writes. -/
def double? (cs : List Char) : Option Float :=
  let (negative, cs) := match cs with
    | '-' :: cs => (true, cs)
    | '+' :: cs => (false, cs)
    | cs => (false, cs)
  if lowered cs = "inf".toList ∨ lowered cs = "infinity".toList then some (infinite negative)
  else if lowered cs = "nan".toList then some notANumber
  else magnitude? negative cs

end Decimal

end Apportion
