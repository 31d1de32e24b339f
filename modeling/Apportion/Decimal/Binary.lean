/-
  Decimal numbers rounded to double precision.

  * `nearestBits num den`: the bits of the double closest to `num / den`, of two
    the one with the even mantissa; from halfway to the next power of two after
    the largest double on, infinity.
  * `ofScientific`: the double closest to a mantissa times a power of ten.
-/
import Apportion.Decimal.Rounding
import Apportion.Powers

namespace Apportion

namespace Decimal

/-- `num / den` as a quotient in units of `2 ^ e`. -/
def inUnits (num den : Nat) (e : Int) : Nat × Nat :=
  (num * 2 ^ (-e).toNat, den * 2 ^ e.toNat)

/-- The bits of positive infinity. -/
def infinityBits : Nat := 0x7FF * 2 ^ 52

/-- The bits of the double closest to the positive number `num / den`. -/
def nearestBits (num den : Nat) : Nat :=
  let low : Int := max ((num.log2 : Int) - den.log2 - 53) (-1074)
  let (n, d) := inUnits num den low
  let e := if n / d < 2 ^ 53 then low else low + 1
  let (n, d) := inUnits num den e
  let mantissa := roundDiv n d
  let bits :=
    if mantissa < 2 ^ 52 then mantissa else (e + 1075).toNat * 2 ^ 52 + (mantissa - 2 ^ 52)
  min bits infinityBits

/-- The double closest to `mantissa * 10 ^ exponent`, with a sign.  Numbers with a leading digit
    beyond the reach of doubles are infinite or zero whatever their other digits. -/
def ofScientific (negative : Bool) (mantissa : Nat) (exponent : Int) : Float :=
  let magnitude : Int := (toString mantissa).length + exponent
  let bits :=
    if mantissa = 0 || magnitude < -330 then 0
    else if 330 < magnitude then infinityBits
    else nearestBits (mantissa * 10 ^ exponent.toNat) (10 ^ (-exponent).toNat)
  Float.ofBits (UInt64.ofNat (bits + if negative then 2 ^ 63 else 0))

/-- The double closest to an integer. -/
def ofInt (n : Int) : Float := ofScientific (n < 0) n.natAbs 0

end Decimal

end Apportion
