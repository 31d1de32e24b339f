/-
  Doubles in the fewest decimal digits that read back as the same double.

  A double stands for all reals that round to it, an interval around its value.
  For one digit, two digits and so on the two neighbours of the value on the
  grid of numbers with so many digits are tried; the first grid with a point in
  the interval gives the digits, the closer point if both are in it and the
  upper one of two equally close.

  * `Span.ofBits`: the interval of a double.
  * `shortest`: the digits and the power of ten they are multiplied with.
  * `plain`: the double written out without an exponent.
-/
import Apportion.Powers

namespace Apportion

namespace Decimal

/-- The reals that round to a positive double, as multiples of `1 / den`. -/
structure Span where
  low : Nat
  value : Nat
  high : Nat
  den : Nat
  /-- Whether the two ends round to the double as well. -/
  closed : Bool

/-- The interval of the positive double with the given bits. -/
def Span.ofBits (bits : Nat) : Span :=
  let field := bits / 2 ^ 52
  let fraction := bits % 2 ^ 52
  let mantissa := if field = 0 then fraction else 2 ^ 52 + fraction
  let exponent : Int := (max field 1 : Nat) - 1077
  let scale := 2 ^ exponent.toNat
  { low := (4 * mantissa - if fraction = 0 ∧ 1 < field then 1 else 2) * scale
    value := 4 * mantissa * scale
    high := (4 * mantissa + 2) * scale
    den := 2 ^ (-exponent).toNat
    closed := mantissa % 2 = 0 }

/-- Whether `n / d` lies in the interval. -/
def Span.holds (s : Span) (n d : Nat) : Bool :=
  let below := s.low * d
  let point := n * s.den
  let above := s.high * d
  if s.closed then below ≤ point && point ≤ above else below < point && point < above

/-- The number of digits before the point, zero or less for numbers below one: the `k` with
    `10 ^ (k - 1) ≤ value < 10 ^ k`. -/
def Span.magnitude (s : Span) : Int :=
  let whole := s.value / s.den
  if whole ≠ 0 then (toString whole).length
  else
    match (List.range 400).find? fun t => s.den ≤ s.value * 10 ^ t with
    | some t => 1 - (t : Int)
    | none => 0

/-- The point of the grid of multiples of `10 ^ j` that stands for the double, if one does. -/
def Span.pointOn? (s : Span) (j : Int) : Option (Nat × Int) :=
  let unit := 10 ^ j.toNat
  let per := 10 ^ (-j).toNat
  let below := s.value * per / (s.den * unit)
  let above := below + 1
  match s.holds (below * unit) per, s.holds (above * unit) per with
  | true, true =>
    if 2 * (s.value * per) < (below + above) * (s.den * unit) then some (below, j)
    else some (above, j)
  | true, false => some (below, j)
  | false, true => some (above, j)
  | false, false => none

/-- Digits and a power of ten that stand for the double, with as few digits as possible. -/
def shortest (s : Span) : Nat × Int :=
  let k := s.magnitude
  match (List.range 17).findSome? fun n : Nat => s.pointOn? (k - (n + 1 : Nat)) with
  | some (digits, j) => if j < 0 ∧ digits % 10 = 0 then (digits / 10, j + 1) else (digits, j)
  | none => (0, 0)

/-- `digits * 10 ^ j` written out. -/
def positional (digits : Nat) (j : Int) : String :=
  let cs := (toString digits).toList
  if 0 ≤ j then String.ofList (cs ++ List.replicate j.toNat '0')
  else
    let places := (-j).toNat
    let cs := List.replicate (places + 1 - cs.length) '0' ++ cs
    String.ofList (cs.take (cs.length - places) ++ '.' :: cs.drop (cs.length - places))

/-- A double in the fewest digits that read back, without an exponent and without a point
    where there is no fraction. -/
def plain (x : Float) : String :=
  let bits := x.toBits.toNat
  let magnitude := bits % 2 ^ 63
  let sign := if bits < 2 ^ 63 then "" else "-"
  if x.isNaN then "NaN"
  else if magnitude = 0x7FF * 2 ^ 52 then sign ++ "inf"
  else if magnitude = 0 then sign ++ "0"
  else
    let (digits, j) := shortest (.ofBits magnitude)
    sign ++ positional digits j

end Decimal

end Apportion
