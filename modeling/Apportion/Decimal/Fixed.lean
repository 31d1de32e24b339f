/-
  Single-precision numbers with two decimal places.

  * `hundredths`: how many hundredths are closest, of two the even number.
  * `twoPlaces`: the number written with two digits after the point.
-/
import Apportion.Decimal.Numeral
import Apportion.Decimal.Rounding

namespace Apportion

namespace Decimal

/-- The hundredths closest to the finite number with the given bits, the sign apart. -/
def hundredths (bits : Nat) : Nat :=
  let field := bits / 2 ^ 23
  let fraction := bits % 2 ^ 23
  let mantissa := if field = 0 then fraction else 2 ^ 23 + fraction
  let exponent : Int := (max field 1 : Nat) - 150
  roundDiv (100 * mantissa * 2 ^ exponent.toNat) (2 ^ (-exponent).toNat)

/-- A number with two places. -/
def twoPlaces (x : Float32) : String :=
  let bits := x.toBits.toNat
  let magnitude := bits % 2 ^ 31
  let sign := if bits < 2 ^ 31 then "" else "-"
  if x.isNaN then "NaN"
  else if magnitude = 0xFF * 2 ^ 23 then sign ++ "inf"
  else
    let h := hundredths magnitude
    sign ++ toString (h / 100) ++ "." ++ padded 2 (h % 100)

end Decimal

end Apportion
