/-
  Which quotients are rounded to a double.

  * `mantissaOf`, `exponentOf`: the mantissa of a double and the power of two it is multiplied with.
  * `RoundsTo`: the interval of a double, half a unit to either side, and half of that below a power
    of two.
  * `inUnits_lt_iff`: how much of a quotient there is in units.
  * `exists_unit`: the unit that a quotient is counted in is the one in which it has 53 bits, if it
    has that many.
  * `RoundsTo.nearestBits_eq`: a quotient in the interval of a double is rounded to it.
-/
import Apportion.Decimal.Binary
import Apportion.Proofs.Double.Rounding
import Mathlib.Algebra.Order.Field.Power
import Mathlib.Data.Rat.Cast.Order
import Mathlib.Tactic.Linarith
import Mathlib.Tactic.NormNum
import Mathlib.Tactic.Positivity

namespace Apportion

namespace Decimal

/-! ## Doubles as mantissas -/

/-- The mantissa of the positive double with the given bits. -/
def mantissaOf (bits : Nat) : Nat :=
  if bits / 2 ^ 52 = 0 then bits % 2 ^ 52 else 2 ^ 52 + bits % 2 ^ 52

/-- The power of two that the mantissa is multiplied with. -/
def exponentOf (bits : Nat) : Int := (max (bits / 2 ^ 52) 1 : Nat) - 1075

/-- How far the interval of a double goes below it, in units of its last bit: less below a power of
    two, where doubles lie closer. -/
def reachBelow (bits : Nat) : ℚ := if bits % 2 ^ 52 = 0 ∧ 1 < bits / 2 ^ 52 then 1 / 4 else 1 / 2

/-- The numbers that are rounded to the positive double with the given bits. -/
structure RoundsTo (x : ℚ) (bits : Nat) : Prop where
  low : (mantissaOf bits - reachBelow bits) * 2 ^ exponentOf bits ≤ x
  high : x ≤ (mantissaOf bits + 1 / 2) * 2 ^ exponentOf bits
  inside : mantissaOf bits % 2 = 1 → (mantissaOf bits - reachBelow bits) * 2 ^ exponentOf bits < x ∧
    x < (mantissaOf bits + 1 / 2) * 2 ^ exponentOf bits

section
variable {bits : Nat}

theorem mantissaOf_lt (bits : Nat) : mantissaOf bits < 2 ^ 53 := by
  have := Nat.mod_lt bits (Nat.two_pow_pos 52)
  unfold mantissaOf
  split <;> omega

theorem mantissaOf_add_one_le (bits : Nat) : (mantissaOf bits : ℚ) + 1 ≤ 2 ^ 53 := by
  exact_mod_cast mantissaOf_lt bits

theorem mantissaOf_pos (h : 0 < bits) : 0 < mantissaOf bits := by
  unfold mantissaOf
  split <;> omega

theorem unit_pos (bits : Nat) : (0 : ℚ) < 2 ^ exponentOf bits := zpow_pos two_pos _

theorem least_exponentOf (bits : Nat) : -1074 ≤ exponentOf bits := by
  unfold exponentOf
  omega

/-- A mantissa has 53 bits, unless the unit is the smallest one. -/
theorem le_mantissaOf (h : exponentOf bits ≠ -1074) : 2 ^ 52 ≤ mantissaOf bits := by
  unfold exponentOf at h
  unfold mantissaOf
  split <;> omega

/-- The bits tell the mantissa and its unit. -/
theorem place_mantissaOf (bits : Nat) :
    (exponentOf bits + 1074).toNat * 2 ^ 52 + mantissaOf bits = bits := by
  unfold exponentOf mantissaOf
  split <;> omega

theorem reachBelow_of_power (h : mantissaOf bits = 2 ^ 52) (hne : exponentOf bits ≠ -1074) :
    reachBelow bits = 1 / 4 := by
  unfold exponentOf at hne
  unfold mantissaOf at h
  have := Nat.mod_lt bits (Nat.two_pow_pos 52)
  rw [reachBelow, if_pos]
  split at h <;> omega

theorem reachBelow_of_ne (h : mantissaOf bits ≠ 2 ^ 52) : reachBelow bits = 1 / 2 := by
  unfold mantissaOf at h
  rw [reachBelow, if_neg]
  rintro ⟨hfraction, hfield⟩
  split at h <;> omega

theorem reachBelow_pos (bits : Nat) : 0 < reachBelow bits := by
  unfold reachBelow
  split <;> norm_num

theorem reachBelow_le (bits : Nat) : reachBelow bits ≤ 1 / 2 := by
  unfold reachBelow
  split <;> norm_num

end

/-! ## Rounding in units -/

/-- What a quotient within half a unit of a number is rounded to. -/
theorem roundDiv_eq {num den m : Nat} (hden : 0 < den) (hlow : (m : ℚ) - 1 / 2 ≤ num / den)
    (hhigh : (num : ℚ) / den ≤ m + 1 / 2)
    (hodd : m % 2 = 1 → (m : ℚ) - 1 / 2 < num / den ∧ (num : ℚ) / den < m + 1 / 2) :
    roundDiv num den = m := by
  have hden' : (0 : ℚ) < den := by exact_mod_cast hden
  have hlow' : 2 * (m * den) ≤ 2 * num + den := by
    rw [le_div_iff₀ hden'] at hlow
    have : 2 * ((m : ℚ) * den) ≤ 2 * num + den := by linarith
    exact_mod_cast this
  have hhigh' : 2 * num ≤ 2 * (m * den) + den := by
    rw [div_le_iff₀ hden'] at hhigh
    have : 2 * (num : ℚ) ≤ 2 * (m * den) + den := by linarith
    exact_mod_cast this
  have hodd' : m % 2 = 1 → 2 * (m * den) < 2 * num + den ∧ 2 * num < 2 * (m * den) + den := by
    intro h
    obtain ⟨h₁, h₂⟩ := hodd h
    rw [lt_div_iff₀ hden'] at h₁
    rw [div_lt_iff₀ hden'] at h₂
    have h₁' : 2 * ((m : ℚ) * den) < 2 * num + den := by linarith
    have h₂' : 2 * (num : ℚ) < 2 * (m * den) + den := by linarith
    exact ⟨by exact_mod_cast h₁', by exact_mod_cast h₂'⟩
  have hmod := Nat.mod_lt num hden
  have hdiv := Nat.div_add_mod num den
  rw [Nat.mul_comm] at hdiv
  have hcases : m = num / den ∨ m = num / den + 1 := by
    have h₁ : num / den < m + 1 := (Nat.div_lt_iff_lt_mul hden).2 (by rw [Nat.add_mul]; omega)
    have h₂ : m < num / den + 2 := by
      refine Nat.lt_of_mul_lt_mul_right (a := den) ?_
      rw [Nat.add_mul]
      omega
    omega
  unfold roundDiv
  dsimp only
  generalize num / den = q at *
  rcases hcases with rfl | rfl
  · split_ifs <;> omega
  · rw [Nat.add_mul] at hlow' hodd'
    split_ifs <;> omega

theorem pos_inUnits {num den : Nat} (e : Int) (h : 0 < den) : 0 < (inUnits num den e).2 :=
  Nat.mul_pos h (Nat.two_pow_pos _)

/-- Counting in units divides by the unit. -/
theorem inUnits_div (num den : Nat) (e : Int) :
    ((inUnits num den e).1 : ℚ) / (inUnits num den e).2 = num / den / 2 ^ e := by
  obtain ⟨k, rfl | rfl⟩ := e.eq_nat_or_neg
  · simp [inUnits, div_div]
  · simp [inUnits, div_mul_eq_mul_div]

section
variable {num den : Nat}

/-- How much of a quotient there is in units. -/
theorem inUnits_lt_iff (hden : 0 < den) (e : Int) (k : Nat) :
    (inUnits num den e).1 / (inUnits num den e).2 < k ↔ (num : ℚ) / den < k * 2 ^ e := by
  rw [← div_lt_iff₀ (zpow_pos two_pos _), ← inUnits_div,
    div_lt_iff₀ (by exact_mod_cast pos_inUnits e hden), Nat.div_lt_iff_lt_mul (pos_inUnits e hden)]
  exact_mod_cast Iff.rfl

/-- What is divided, by its leading bit and that of what it is divided by. -/
theorem div_bounds (hnum : 0 < num) (hden : 0 < den) :
    (2 : ℚ) ^ ((num.log2 : Int) - den.log2 - 1) < num / den ∧
      (num : ℚ) / den < 2 ^ ((num.log2 : Int) - den.log2 + 1) := by
  have htwo : (2 : ℚ) ≠ 0 := two_ne_zero
  have hden' : (0 : ℚ) < den := by exact_mod_cast hden
  have hnum_low : (2 : ℚ) ^ num.log2 ≤ num := by exact_mod_cast Nat.log2_self_le hnum.ne'
  have hnum_high : (num : ℚ) < 2 ^ num.log2 * 2 := by
    rw [← pow_succ]
    exact_mod_cast Nat.lt_log2_self
  have hden_low : (2 : ℚ) ^ den.log2 ≤ den := by exact_mod_cast Nat.log2_self_le hden.ne'
  have hden_high : (den : ℚ) < 2 ^ den.log2 * 2 := by
    rw [← pow_succ]
    exact_mod_cast Nat.lt_log2_self
  have hpos : (0 : ℚ) < 2 ^ den.log2 := by positivity
  have hpos' : (0 : ℚ) < 2 ^ num.log2 := by positivity
  constructor
  · rw [zpow_sub₀ htwo, zpow_sub₀ htwo, zpow_natCast, zpow_natCast, zpow_one, div_div,
      div_lt_div_iff₀ (by positivity) hden']
    calc (2 : ℚ) ^ num.log2 * den < 2 ^ num.log2 * (2 ^ den.log2 * 2) :=
          mul_lt_mul_of_pos_left hden_high hpos'
      _ ≤ num * (2 ^ den.log2 * 2) := mul_le_mul_of_nonneg_right hnum_low (by positivity)
  · rw [zpow_add₀ htwo, zpow_sub₀ htwo, zpow_natCast, zpow_natCast, zpow_one,
      div_mul_eq_mul_div, div_lt_div_iff₀ hden' hpos]
    calc (num : ℚ) * 2 ^ den.log2 < 2 ^ num.log2 * 2 * 2 ^ den.log2 :=
          mul_lt_mul_of_pos_right hnum_high hpos
      _ ≤ 2 ^ num.log2 * 2 * den := mul_le_mul_of_nonneg_left hden_low (by positivity)

/-- Counted in this unit, a quotient has 53 or 54 bits. -/
theorem lead_bounds (hnum : 0 < num) (hden : 0 < den) :
    (2 : ℚ) ^ 52 * 2 ^ ((num.log2 : Int) - den.log2 - 53) < num / den ∧
      (num : ℚ) / den < 2 ^ 53 * (2 * 2 ^ ((num.log2 : Int) - den.log2 - 53)) := by
  have htwo : (2 : ℚ) ≠ 0 := two_ne_zero
  obtain ⟨hlow, hhigh⟩ := div_bounds hnum hden
  constructor
  · rw [← zpow_natCast, ← zpow_add₀ htwo]
    convert hlow using 2
    omega
  · rw [← mul_assoc, ← pow_succ, ← zpow_natCast, ← zpow_add₀ htwo]
    convert hhigh using 2
    omega

/-- The bits of a mantissa that has 53 bits, or is counted in the smallest unit. -/
theorem bits_eq {e : Int} {mantissa : Nat} (he : -1074 ≤ e) (h : e ≠ -1074 → 2 ^ 52 ≤ mantissa) :
    (if mantissa < 2 ^ 52 then mantissa else (e + 1075).toNat * 2 ^ 52 + (mantissa - 2 ^ 52)) =
      (e + 1074).toNat * 2 ^ 52 + mantissa := by
  split <;> omega

/-- **The unit that a quotient is counted in**: the quotient has at most 53 bits in it, and no fewer
    unless it is the smallest unit. -/
theorem exists_unit (hnum : 0 < num) (hden : 0 < den) :
    ∃ e : Int, -1074 ≤ e ∧ (num : ℚ) / den < 2 ^ 53 * 2 ^ e ∧
      (e = -1074 ∨ (2 : ℚ) ^ 52 * 2 ^ e ≤ num / den) ∧
      nearestBits num den = min ((e + 1074).toNat * 2 ^ 52 +
        roundDiv (inUnits num den e).1 (inUnits num den e).2) infinityBits := by
  obtain ⟨hlow, hhigh⟩ := lead_bounds hnum hden
  generalize hlead : (num.log2 : Int) - den.log2 - 53 = lead at *
  -- The first unit tried leaves 53 or 54 bits; if 54 are left, the next one does it.
  generalize hfirst : max lead (-1074) = first
  have hfirst_le : (2 : ℚ) ^ lead ≤ 2 ^ first := zpow_le_zpow_right₀ one_le_two (by omega)
  have hnext : (2 : ℚ) ^ (first + 1) = 2 * 2 ^ first := by rw [zpow_add_one₀ two_ne_zero, mul_comm]
  have hfits : (inUnits num den first).1 / (inUnits num den first).2 < 2 ^ 53 ↔
      (num : ℚ) / den < 2 ^ 53 * 2 ^ first := by
    rw [inUnits_lt_iff hden]
    push_cast
    rfl
  have hunit : ∃ e : Int, (e = if (inUnits num den first).1 / (inUnits num den first).2 < 2 ^ 53
        then first else first + 1) ∧ -1074 ≤ e ∧ (num : ℚ) / den < 2 ^ 53 * 2 ^ e ∧
      (e = -1074 ∨ (2 : ℚ) ^ 52 * 2 ^ e ≤ num / den) := by
    refine ⟨_, rfl, ?_⟩
    split_ifs with h
    · refine ⟨by omega, hfits.1 h, ?_⟩
      rcases Int.lt_or_le (-1074) lead with hlt | hle
      · have hsame : first = lead := by omega
        exact Or.inr (hsame ▸ hlow.le)
      · exact Or.inl (by omega)
    · rw [hnext]
      rw [hfits, not_lt] at h
      refine ⟨by omega, hhigh.trans_le (by gcongr), Or.inr ?_⟩
      linarith
  obtain ⟨e, he, hleast, hbelow, hfull⟩ := hunit
  refine ⟨e, hleast, hbelow, hfull, ?_⟩
  rw [nearestBits]
  simp only [hlead, hfirst, ← he]
  have hmantissa : e ≠ -1074 →
      2 ^ 52 ≤ roundDiv (inUnits num den e).1 (inUnits num den e).2 := by
    intro hne
    refine le_trans ?_ div_le_roundDiv
    rw [← not_lt, inUnits_lt_iff hden, not_lt]
    push_cast
    exact hfull.resolve_left hne
  rw [bits_eq hleast hmantissa]

end

/-! ## Rounding to a double -/

theorem half_zpow (e : Int) : (2 : ℚ) ^ (e - 1) = 2 ^ e / 2 := by
  rw [zpow_sub_one₀ two_ne_zero, div_eq_mul_inv]

namespace RoundsTo

variable {x : ℚ} {num den bits : Nat} {e : Int}

theorem of_between (hlow : (mantissaOf bits - reachBelow bits) * 2 ^ exponentOf bits < x)
    (hhigh : x < (mantissaOf bits + 1 / 2) * 2 ^ exponentOf bits) : RoundsTo x bits :=
  ⟨hlow.le, hhigh.le, fun _ => ⟨hlow, hhigh⟩⟩

/-- In a larger unit there are fewer bits. -/
theorem lt_of_exponentOf_lt (h : RoundsTo x bits) (he : exponentOf bits < e) :
    x < 2 ^ 52 * 2 ^ e := by
  have hunit := unit_pos bits
  have hmost := mantissaOf_add_one_le bits
  have hdouble : 2 * (2 : ℚ) ^ exponentOf bits ≤ 2 ^ e := by
    rw [← zpow_one_add₀ two_ne_zero]
    exact zpow_le_zpow_right₀ one_le_two (by omega)
  calc x ≤ (mantissaOf bits + 1 / 2) * 2 ^ exponentOf bits := h.high
    _ < 2 ^ 53 * 2 ^ exponentOf bits := mul_lt_mul_of_pos_right (by linarith) hunit
    _ = 2 ^ 52 * (2 * 2 ^ exponentOf bits) := by ring
    _ ≤ 2 ^ 52 * 2 ^ e := by gcongr

/-- In a smaller unit there are more bits, except just below a power of two. -/
theorem power_of_lt_exponentOf (h : RoundsTo x bits) (hx : x < 2 ^ 53 * 2 ^ e)
    (he : e < exponentOf bits) (hne : exponentOf bits ≠ -1074) :
    mantissaOf bits = 2 ^ 52 ∧ e = exponentOf bits - 1 := by
  have hunit := unit_pos bits
  have hpower : mantissaOf bits = 2 ^ 52 := by
    have hhalf : (2 : ℚ) ^ e ≤ 2 ^ exponentOf bits / 2 := by
      rw [← half_zpow]
      exact zpow_le_zpow_right₀ one_le_two (by omega)
    have hbelow : (mantissaOf bits - reachBelow bits) * 2 ^ exponentOf bits <
        2 ^ 52 * 2 ^ exponentOf bits := by
      linarith [h.low]
    have hlt : (mantissaOf bits : ℚ) < 2 ^ 52 + 1 := by
      linarith [lt_of_mul_lt_mul_right hbelow hunit.le, reachBelow_le bits]
    have hle : mantissaOf bits < 2 ^ 52 + 1 := by exact_mod_cast hlt
    exact Nat.le_antisymm (Nat.le_of_lt_succ hle) (le_mantissaOf hne)
  refine ⟨hpower, ?_⟩
  by_contra hmore
  have hquarter : (2 : ℚ) ^ e ≤ 2 ^ exponentOf bits / 2 / 2 := by
    rw [← half_zpow, ← half_zpow]
    exact zpow_le_zpow_right₀ one_le_two (by omega)
  have hlow := h.low
  rw [reachBelow_of_power hpower hne, hpower] at hlow
  push_cast at hlow
  linarith

/-- In the unit of a double the quotient is rounded to its mantissa. -/
theorem roundDiv_inUnits (h : RoundsTo (num / den) bits) (hden : 0 < den) :
    roundDiv (inUnits num den (exponentOf bits)).1 (inUnits num den (exponentOf bits)).2 =
      mantissaOf bits := by
  have hunit := unit_pos bits
  have hreach := reachBelow_le bits
  refine roundDiv_eq (pos_inUnits _ hden) ?_ ?_ fun hodd => ?_ <;> rw [inUnits_div]
  · rw [le_div_iff₀ hunit]
    refine le_trans ?_ h.low
    gcongr
  · rw [div_le_iff₀ hunit]
    exact h.high
  · rw [lt_div_iff₀ hunit, div_lt_iff₀ hunit]
    refine ⟨lt_of_le_of_lt ?_ (h.inside hodd).1, (h.inside hodd).2⟩
    gcongr

/-- In half the unit of a power of two, what is just below it is rounded up. -/
theorem roundDiv_inUnits_of_power (h : RoundsTo (num / den) bits) (hden : 0 < den)
    (hpower : mantissaOf bits = 2 ^ 52) (hne : exponentOf bits ≠ -1074)
    (hx : (num : ℚ) / den < 2 ^ 53 * 2 ^ (exponentOf bits - 1)) :
    roundDiv (inUnits num den (exponentOf bits - 1)).1 (inUnits num den (exponentOf bits - 1)).2 =
      2 ^ 53 := by
  have hunit := unit_pos bits
  have hlow := h.low
  rw [reachBelow_of_power hpower hne, hpower] at hlow
  push_cast at hlow
  rw [half_zpow] at hx
  refine roundDiv_eq (pos_inUnits _ hden) ?_ ?_ (fun hodd => absurd hodd (by decide)) <;>
    rw [inUnits_div, half_zpow] <;> push_cast
  · rw [le_div_iff₀ (by positivity)]
    linarith
  · rw [div_le_iff₀ (by positivity)]
    linarith

/-- **A quotient in the interval of a double is rounded to it.** -/
theorem nearestBits_eq (h : RoundsTo (num / den) bits) (hnum : 0 < num) (hden : 0 < den)
    (hbits : bits < infinityBits) : nearestBits num den = bits := by
  obtain ⟨e, hleast, hbelow, hfull, hnearest⟩ := exists_unit hnum hden
  have hplace := place_mantissaOf bits
  rw [hnearest]
  rcases lt_trichotomy e (exponentOf bits) with hlt | rfl | hgt
  · have hne : exponentOf bits ≠ -1074 := by omega
    obtain ⟨hpower, rfl⟩ := h.power_of_lt_exponentOf hbelow hlt hne
    have hcarry : (exponentOf bits - 1 + 1074).toNat * 2 ^ 52 + 2 ^ 53 = bits := by
      have hnext : (exponentOf bits + 1074).toNat = (exponentOf bits - 1 + 1074).toNat + 1 := by omega
      rw [hpower, hnext, Nat.add_mul, Nat.one_mul, Nat.add_assoc] at hplace
      exact hplace
    rw [h.roundDiv_inUnits_of_power hden hpower hne hbelow, hcarry, Nat.min_eq_left hbits.le]
  · rw [h.roundDiv_inUnits hden, hplace, Nat.min_eq_left hbits.le]
  · have hleast' := least_exponentOf bits
    exact absurd (hfull.resolve_left (by omega)) (not_le.2 (h.lt_of_exponentOf_lt hgt))

end RoundsTo

end Decimal

end Apportion
