/-
  Rounding of quotients.

  * `roundDiv num den`: the natural number closest to `num / den`, of two the
    even one.
-/

namespace Apportion

namespace Decimal

/-- The natural number closest to `num / den`; halfway between two it is the even one. -/
def roundDiv (num den : Nat) : Nat :=
  let q := num / den
  let r := num % den
  if 2 * r < den then q
  else if den < 2 * r then q + 1
  else q + q % 2

end Decimal

end Apportion
