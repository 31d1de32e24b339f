/-
  Byte counts and offsets: 64-bit numbers whose sums either stop at the
  largest one or are refused, never wrapped.

  * `satAdd`, `satSub`: a sum that stops at `2 ^ 64 - 1`, a difference that
    stops at zero.
  * `addWithin?`: the sum, unless it exceeds `2 ^ 64 - 1`.
  * `clamp`: the quantity closest to a natural number.
  * `toNat_satAdd`, `toNat_satSub`, `addWithin?_eq_some_iff`: what they are on
    natural numbers.
-/
import Apportion.Powers

namespace Apportion

namespace Quantity

/-- The largest quantity. -/
def largest : Nat := 2 ^ 64 - 1

/-- The quantity closest to a natural number. -/
def clamp (n : Nat) : UInt64 := UInt64.ofNat (min n largest)

/-- Sum, stopping at the largest quantity. -/
def satAdd (a b : UInt64) : UInt64 := clamp (a.toNat + b.toNat)

/-- Difference, stopping at zero. -/
def satSub (a b : UInt64) : UInt64 := if b ≤ a then a - b else 0

/-- The sum, if it is a quantity at all. -/
def addWithin? (a b : UInt64) : Option UInt64 :=
  if a.toNat + b.toNat ≤ largest then some (a + b) else none

theorem toNat_clamp (n : Nat) : (clamp n).toNat = min n largest := by
  have h : min n largest < 2 ^ 64 := by simp only [largest]; omega
  simp only [clamp, UInt64.toNat_ofNat']
  exact Nat.mod_eq_of_lt h

theorem toNat_satAdd (a b : UInt64) : (satAdd a b).toNat = min (a.toNat + b.toNat) largest :=
  toNat_clamp _

theorem toNat_satSub (a b : UInt64) : (satSub a b).toNat = a.toNat - b.toNat := by
  unfold satSub
  split
  · rename_i h
    exact UInt64.toNat_sub_of_le a b h
  · rename_i h
    have : ¬ b.toNat ≤ a.toNat := fun h' => h (UInt64.le_iff_toNat_le.2 h')
    simp only [UInt64.toNat_zero]
    omega

theorem addWithin?_eq_some_iff {a b s : UInt64} :
    addWithin? a b = some s ↔ s.toNat = a.toNat + b.toNat := by
  unfold addWithin?
  split
  · rename_i h
    simp only [largest] at h
    have hs : (a + b).toNat = a.toNat + b.toNat := by
      rw [UInt64.toNat_add]; exact Nat.mod_eq_of_lt (by omega)
    constructor
    · rintro ⟨⟩; exact hs
    · intro h'; exact congrArg some (UInt64.toNat_inj.1 (hs.trans h'.symm))
  · rename_i h
    simp only [reduceCtorEq, false_iff, largest] at h ⊢
    have := s.toNat_lt
    omega

end Quantity

end Apportion
