/-
  Natural numbers in decimal digits.

  * `natural?` reads a text of digits, `unsigned?` allows a plus sign in front
    and refuses numbers above a limit.
  * `padded` writes a number with at least a given number of digits.
-/
import Apportion.Powers

namespace Apportion

namespace Decimal

/-- The value of a digit. -/
def digit? (c : Char) : Option Nat :=
  if '0' ≤ c ∧ c ≤ '9' then some (c.toNat - '0'.toNat) else none

/-- Whether a character is one of the ten digits. -/
def isDigit (c : Char) : Bool := (digit? c).isSome

/-- The number that digits write, after a number `n` written by earlier ones. -/
def continue? : (n : Nat) → List Char → Option Nat
  | n, [] => some n
  | n, c :: cs =>
    match digit? c with
    | some d => continue? (10 * n + d) cs
    | none => none

/-- The number a text of one or more digits writes. -/
def natural? : List Char → Option Nat
  | [] => none
  | cs => continue? 0 cs

/-- The number at most `limit` that a text of digits writes, with or without a plus sign. -/
def unsigned? (limit : Nat) (cs : List Char) : Option Nat :=
  let digits := match cs with
    | '+' :: cs => cs
    | cs => cs
  (natural? digits).filter (· ≤ limit)

/-- A 64-bit number in digits, with or without a plus sign. -/
def quantity? (cs : List Char) : Option UInt64 := (unsigned? (2 ^ 64 - 1) cs).map UInt64.ofNat

/-- A number in digits, with zeros in front up to `width` of them. -/
def padded (width n : Nat) : String :=
  let digits := toString n
  String.ofList (List.replicate (width - digits.length) '0') ++ digits

end Decimal

end Apportion
