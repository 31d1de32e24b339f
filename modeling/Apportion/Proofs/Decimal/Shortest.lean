/-
  The fewest digits that stand for a double are rounded to it.

  * `Span.holds_ofBits`: the interval that is tried is that of the numbers rounded to the double.
  * `Span.pow_magnitude_le`: how large a double is at least.
  * `roundsTo_shortest`: seventeen digits are enough, and those found are rounded to the double.
  * `RoundsTo.ofScientific_eq`: digits that are rounded to a double are read as it.
-/
import Apportion.Decimal.Shortest
import Apportion.Proofs.Decimal.Nearest

namespace Apportion

namespace Decimal

/-- A power with an exponent of either sign. -/
theorem pow_toNat_div (base : ℚ) (e : Int) : base ^ e.toNat / base ^ (-e).toNat = base ^ e := by
  obtain ⟨k, rfl | rfl⟩ := e.eq_nat_or_neg
  · simp
  · simp

namespace Span

variable {bits : Nat}

/-! ## Intervals -/

/-- The interval in terms of the mantissa and its unit. -/
theorem ofBits_eq (bits : Nat) : ofBits bits =
    { low := (4 * mantissaOf bits - if bits % 2 ^ 52 = 0 ∧ 1 < bits / 2 ^ 52 then 1 else 2) *
        2 ^ (exponentOf bits - 2).toNat
      value := 4 * mantissaOf bits * 2 ^ (exponentOf bits - 2).toNat
      high := (4 * mantissaOf bits + 2) * 2 ^ (exponentOf bits - 2).toNat
      den := 2 ^ (-(exponentOf bits - 2)).toNat
      closed := mantissaOf bits % 2 = 0 } := by
  have hexponent : exponentOf bits - 2 = ((max (bits / 2 ^ 52) 1 : Nat) : Int) - 1077 := by
    unfold exponentOf
    omega
  rw [hexponent]
  rfl

theorem pos_den (bits : Nat) : 0 < (ofBits bits).den := Nat.two_pow_pos _

theorem scale_div (n bits : Nat) :
    ((n * 2 ^ (exponentOf bits - 2).toNat : Nat) : ℚ) / (ofBits bits).den =
      n / 4 * 2 ^ exponentOf bits := by
  rw [ofBits_eq]
  push_cast
  rw [mul_div_assoc, pow_toNat_div, zpow_sub₀ two_ne_zero]
  norm_num
  ring

theorem value_div (bits : Nat) :
    ((ofBits bits).value : ℚ) / (ofBits bits).den = mantissaOf bits * 2 ^ exponentOf bits := by
  have hvalue : (ofBits bits).value = 4 * mantissaOf bits * 2 ^ (exponentOf bits - 2).toNat := by
    rw [ofBits_eq]
  rw [hvalue, scale_div]
  push_cast
  ring

theorem high_div (bits : Nat) : ((ofBits bits).high : ℚ) / (ofBits bits).den =
    (mantissaOf bits + 1 / 2) * 2 ^ exponentOf bits := by
  have hhigh : (ofBits bits).high = (4 * mantissaOf bits + 2) * 2 ^ (exponentOf bits - 2).toNat := by
    rw [ofBits_eq]
  rw [hhigh, scale_div]
  push_cast
  ring

theorem low_div (h : 0 < bits) : ((ofBits bits).low : ℚ) / (ofBits bits).den =
    (mantissaOf bits - reachBelow bits) * 2 ^ exponentOf bits := by
  have hlow : (ofBits bits).low = (4 * mantissaOf bits -
      if bits % 2 ^ 52 = 0 ∧ 1 < bits / 2 ^ 52 then 1 else 2) * 2 ^ (exponentOf bits - 2).toNat := by
    rw [ofBits_eq]
  have hpos := mantissaOf_pos h
  have hreach : ((4 * mantissaOf bits -
      if bits % 2 ^ 52 = 0 ∧ 1 < bits / 2 ^ 52 then 1 else 2 : Nat) : ℚ) =
        4 * (mantissaOf bits - reachBelow bits) := by
    unfold reachBelow
    split <;> rw [Nat.cast_sub (by omega)] <;> push_cast <;> ring
  rw [hlow, scale_div, hreach]
  ring

/-- The interval that is tried is that of the numbers rounded to the double. -/
theorem holds_ofBits (h : 0 < bits) {n d : Nat} (hd : 0 < d) :
    (ofBits bits).holds n d ↔ RoundsTo (n / d) bits := by
  have hden : (0 : ℚ) < (ofBits bits).den := by exact_mod_cast pos_den bits
  have hd' : (0 : ℚ) < d := by exact_mod_cast hd
  have hle : ∀ {a b c e : Nat}, (0 : ℚ) < b → (0 : ℚ) < e →
      (a * e ≤ c * b ↔ (a : ℚ) / b ≤ c / e) := by
    intro a b c e hb he
    rw [div_le_div_iff₀ hb he]
    exact_mod_cast Iff.rfl
  have hlt : ∀ {a b c e : Nat}, (0 : ℚ) < b → (0 : ℚ) < e →
      (a * e < c * b ↔ (a : ℚ) / b < c / e) := by
    intro a b c e hb he
    rw [div_lt_div_iff₀ hb he]
    exact_mod_cast Iff.rfl
  have hclosed : (ofBits bits).closed = decide (mantissaOf bits % 2 = 0) := rfl
  have hleft := low_div h
  have hright := high_div bits
  rw [holds, hclosed]
  by_cases heven : mantissaOf bits % 2 = 0
  · rw [decide_eq_true heven, if_pos rfl, Bool.and_eq_true, decide_eq_true_iff, decide_eq_true_iff,
      hle hden hd', hle hd' hden, hleft, hright]
    exact ⟨fun ⟨hl, hh⟩ => ⟨hl, hh, fun hodd => absurd hodd (by omega)⟩, fun hr => ⟨hr.low, hr.high⟩⟩
  · rw [decide_eq_false heven, if_neg (by decide), Bool.and_eq_true, decide_eq_true_iff,
      decide_eq_true_iff, hlt hden hd', hlt hd' hden, hleft, hright]
    exact ⟨fun ⟨hl, hh⟩ => ⟨hl.le, hh.le, fun _ => ⟨hl, hh⟩⟩, fun hr => hr.inside (by omega)⟩

/-! ## Points -/

/-- A point that stands for a double is in its interval. -/
theorem holds_of_pointOn? {s : Span} {j j' : Int} {p : Nat} (h : s.pointOn? j = some (p, j')) :
    j' = j ∧ s.holds (p * 10 ^ j.toNat) (10 ^ (-j).toNat) := by
  rw [pointOn?] at h
  split at h
  · rename_i hbelow habove
    split at h <;> cases h
    · exact ⟨rfl, hbelow⟩
    · exact ⟨rfl, habove⟩
  · rename_i hbelow _
    cases h
    exact ⟨rfl, hbelow⟩
  · rename_i _ habove
    cases h
    exact ⟨rfl, habove⟩
  · cases h

/-- If no point of a grid stands for a double, then its interval fits in between. -/
theorem holds_of_pointOn?_eq_none {s : Span} {j : Int} (h : s.pointOn? j = none) :
    let below := s.value * 10 ^ (-j).toNat / (s.den * 10 ^ j.toNat)
    s.holds (below * 10 ^ j.toNat) (10 ^ (-j).toNat) = false ∧
      s.holds ((below + 1) * 10 ^ j.toNat) (10 ^ (-j).toNat) = false := by
  rw [pointOn?] at h
  split at h
  · split at h <;> cases h
  · cases h
  · cases h
  · rename_i hbelow habove
    exact ⟨hbelow, habove⟩

theorem cast_point (p : Nat) (j : Int) :
    ((p * 10 ^ j.toNat : Nat) : ℚ) / (10 ^ (-j).toNat : Nat) = p * 10 ^ j := by
  push_cast
  rw [mul_div_assoc, pow_toNat_div]

/-- A point that stands for a double is rounded to it. -/
theorem roundsTo_of_pointOn? (hbits : 0 < bits) {j j' : Int} {p : Nat}
    (h : (ofBits bits).pointOn? j = some (p, j')) : RoundsTo (p * 10 ^ j') bits := by
  obtain ⟨rfl, hholds⟩ := holds_of_pointOn? h
  rw [holds_ofBits hbits (Nat.pow_pos (by decide)), cast_point] at hholds
  exact hholds

/-- The point of a grid below a double, and that above it. -/
theorem below_bounds {s : Span} (hden : 0 < s.den) (j : Int) :
    let below := s.value * 10 ^ (-j).toNat / (s.den * 10 ^ j.toNat)
    (below : ℚ) * 10 ^ j ≤ s.value / s.den ∧ (s.value : ℚ) / s.den < (below + 1 : Nat) * 10 ^ j := by
  intro below
  have hgrid : (0 : ℚ) < 10 ^ j := zpow_pos (by norm_num) _
  have hunit : 0 < s.den * 10 ^ j.toNat := Nat.mul_pos hden (Nat.pow_pos (by decide))
  have hunit' : (0 : ℚ) < ((s.den * 10 ^ j.toNat : Nat) : ℚ) := by exact_mod_cast hunit
  have hratio : ((s.value * 10 ^ (-j).toNat : Nat) : ℚ) / ((s.den * 10 ^ j.toNat : Nat) : ℚ) =
      s.value / s.den / 10 ^ j := by
    rw [← pow_toNat_div]
    push_cast
    rw [div_div_eq_mul_div, div_mul_eq_mul_div, div_div]
  rw [← le_div_iff₀ hgrid, ← div_lt_iff₀ hgrid, ← hratio, le_div_iff₀ hunit', div_lt_iff₀ hunit']
  have hbelow := Nat.div_mul_le_self (s.value * 10 ^ (-j).toNat) (s.den * 10 ^ j.toNat)
  have habove := (Nat.div_lt_iff_lt_mul hunit).1 (Nat.lt_succ_self below)
  exact ⟨by exact_mod_cast hbelow, by exact_mod_cast habove⟩

/-- A grid that is finer than the interval is wide has a point that stands for the double. -/
theorem pointOn?_ne_none (hbits : 0 < bits) {j : Int}
    (hj : (10 : ℚ) ^ j < (reachBelow bits + 1 / 2) * 2 ^ exponentOf bits) :
    (ofBits bits).pointOn? j ≠ none := by
  intro hnone
  obtain ⟨hbelow, habove⟩ := holds_of_pointOn?_eq_none hnone
  obtain ⟨hle, hlt⟩ := below_bounds (pos_den bits) j
  generalize (ofBits bits).value * 10 ^ (-j).toNat / ((ofBits bits).den * 10 ^ j.toNat) = below at *
  have hunit := unit_pos bits
  have hreach := reachBelow_pos bits
  rw [value_div] at hle hlt
  have hout : ∀ p : Nat, (ofBits bits).holds (p * 10 ^ j.toNat) (10 ^ (-j).toNat) = false →
      (mantissaOf bits - reachBelow bits) * 2 ^ exponentOf bits < (p : ℚ) * 10 ^ j →
        (mantissaOf bits + 1 / 2) * 2 ^ exponentOf bits ≤ (p : ℚ) * 10 ^ j := by
    intro p hp hlow
    by_contra hhigh
    have hin : RoundsTo (p * 10 ^ j) bits := .of_between hlow (not_le.1 hhigh)
    rw [← cast_point, ← holds_ofBits hbits (Nat.pow_pos (by decide)), hp] at hin
    cases hin
  have hleft : (below : ℚ) * 10 ^ j ≤ (mantissaOf bits - reachBelow bits) * 2 ^ exponentOf bits := by
    by_contra hlow
    have := hout below hbelow (not_le.1 hlow)
    linarith
  have hright : (mantissaOf bits + 1 / 2) * 2 ^ exponentOf bits ≤ (below + 1 : Nat) * (10 : ℚ) ^ j := by
    refine hout _ habove (lt_of_le_of_lt ?_ hlt)
    gcongr
    linarith
  push_cast at hright
  linarith

end Span

/-! ## Magnitudes -/

theorem length_toString_pos (n : Nat) : 0 < (toString n).length := Nat.length_repr_pos

theorem lt_pow_length (n : Nat) : n < 10 ^ (toString n).length :=
  (Nat.length_repr_le_iff (length_toString_pos n)).1 (Nat.le_refl _)

theorem pow_length_le {n : Nat} (h : 0 < n) : 10 ^ ((toString n).length - 1) ≤ n := by
  by_contra hlt
  by_cases hone : (toString n).length - 1 = 0
  · rw [hone] at hlt
    omega
  · have hle := (Nat.length_repr_le_iff (Nat.pos_of_ne_zero hone)).2 (not_le.1 hlt)
    have hpos := length_toString_pos n
    change (toString n).length ≤ _ at hle
    omega

namespace Span

variable {bits : Nat}

/-- How large the value of an interval is at least. -/
theorem pow_magnitude_le {s : Span} (hden : 0 < s.den)
    (hvalue : ∃ t < 400, s.den ≤ s.value * 10 ^ t) :
    (10 : ℚ) ^ (s.magnitude - 1) ≤ s.value / s.den := by
  have hden' : (0 : ℚ) < s.den := by exact_mod_cast hden
  rw [le_div_iff₀ hden']
  unfold magnitude
  dsimp only
  split
  · rename_i hwhole
    have hpos := length_toString_pos (s.value / s.den)
    have hexponent : ((toString (s.value / s.den)).length : Int) - 1 =
        ((toString (s.value / s.den)).length - 1 : Nat) := by omega
    rw [hexponent, zpow_natCast]
    have hle := (Nat.le_div_iff_mul_le hden).1 (pow_length_le (Nat.pos_of_ne_zero hwhole))
    exact_mod_cast hle
  · split
    · rename_i t hfind
      have hle := List.find?_some hfind
      rw [decide_eq_true_iff] at hle
      have hexponent : 1 - (t : Int) - 1 = -(t : Int) := by omega
      rw [hexponent, zpow_neg, zpow_natCast, inv_mul_le_iff₀ (by positivity), mul_comm]
      exact_mod_cast hle
    · rename_i hnone
      obtain ⟨t, ht, hle⟩ := hvalue
      exact absurd (decide_eq_true hle) (List.find?_eq_none.1 hnone t (List.mem_range.2 ht))

theorem two_pow_le_ten_pow (t : Nat) : 2 ^ (3 * t) ≤ 10 ^ t := by
  rw [Nat.pow_mul]
  exact Nat.pow_le_pow_left (by decide) t

theorem den_le_value (hbits : 0 < bits) :
    ∃ t < 400, (ofBits bits).den ≤ (ofBits bits).value * 10 ^ t := by
  refine ⟨399, by decide, ?_⟩
  have hexponent := least_exponentOf bits
  have hmantissa := mantissaOf_pos hbits
  rw [ofBits_eq]
  dsimp only
  calc 2 ^ (-(exponentOf bits - 2)).toNat ≤ 2 ^ 1076 := Nat.pow_le_pow_right Nat.two_pos (by omega)
    _ ≤ 10 ^ 399 := (Nat.pow_le_pow_right Nat.two_pos (by decide)).trans (two_pow_le_ten_pow 399)
    _ ≤ 4 * mantissaOf bits * 2 ^ (exponentOf bits - 2).toNat * 10 ^ 399 :=
        Nat.le_mul_of_pos_left _ (Nat.mul_pos (by omega) (Nat.two_pow_pos _))

/-- Seventeen digits are enough. -/
theorem pow_lt_width (hbits : 0 < bits) :
    (10 : ℚ) ^ ((ofBits bits).magnitude - 17) < (reachBelow bits + 1 / 2) * 2 ^ exponentOf bits := by
  have hunit := unit_pos bits
  have hle := pow_magnitude_le (pos_den bits) (den_le_value hbits)
  rw [value_div] at hle
  have hgrid : (10 : ℚ) ^ ((ofBits bits).magnitude - 17) =
      10 ^ ((ofBits bits).magnitude - 1) / 10 ^ 16 := by
    rw [← zpow_natCast, ← zpow_sub₀ (by norm_num)]
    congr 1
    omega
  have hmantissa : (mantissaOf bits : ℚ) < (reachBelow bits + 1 / 2) * 10 ^ 16 := by
    by_cases hpower : mantissaOf bits = 2 ^ 52
    · rw [hpower]
      have hpos := reachBelow_pos bits
      norm_num
      linarith
    · have hmost := mantissaOf_add_one_le bits
      rw [reachBelow_of_ne hpower]
      refine (lt_add_one _).trans_le (hmost.trans ?_)
      norm_num
  rw [hgrid, div_lt_iff₀ (by positivity)]
  calc (10 : ℚ) ^ ((ofBits bits).magnitude - 1) ≤ mantissaOf bits * 2 ^ exponentOf bits := hle
    _ < (reachBelow bits + 1 / 2) * 10 ^ 16 * 2 ^ exponentOf bits :=
        mul_lt_mul_of_pos_right hmantissa hunit
    _ = (reachBelow bits + 1 / 2) * 2 ^ exponentOf bits * 10 ^ 16 := by ring

end Span

/-! ## Digits -/

/-- **The fewest digits that stand for a double are rounded to it.** -/
theorem roundsTo_shortest {bits : Nat} (hbits : 0 < bits) :
    RoundsTo ((shortest (.ofBits bits)).1 * 10 ^ (shortest (.ofBits bits)).2) bits := by
  have hsome : ∃ p, (List.range 17).findSome? (fun n : Nat =>
      (Span.ofBits bits).pointOn? ((Span.ofBits bits).magnitude - (n + 1 : Nat))) = some p := by
    rw [← Option.isSome_iff_exists, List.findSome?_isSome_iff]
    exact ⟨16, by decide, Option.isSome_iff_ne_none.2
      (Span.pointOn?_ne_none hbits (Span.pow_lt_width hbits))⟩
  obtain ⟨⟨digits, j⟩, hfound⟩ := hsome
  obtain ⟨n, -, hpoint⟩ := List.exists_of_findSome?_eq_some hfound
  have hrounds := Span.roundsTo_of_pointOn? hbits hpoint
  rw [shortest]
  simp only [hfound]
  split_ifs with hzero
  · -- A zero at the end of a fraction is left out.
    have hdigits : (digits : ℚ) = (digits / 10 : Nat) * 10 := by
      exact_mod_cast (by omega : digits = digits / 10 * 10)
    rw [zpow_add_one₀ (by norm_num)]
    rw [hdigits] at hrounds
    convert hrounds using 1
    ring
  · exact hrounds

/-! ## Reading digits -/

/-- The double with the given bits and a sign. -/
def signed (negative : Bool) (bits : Nat) : Float :=
  Float.ofBits (UInt64.ofNat (bits + if negative then 2 ^ 63 else 0))

namespace RoundsTo

variable {bits mantissa : Nat} {exponent : Int} {x : ℚ}

theorem lt_pow (h : RoundsTo x bits) (hbits : bits < infinityBits) : x < 10 ^ (321 : Int) := by
  have hexponent : exponentOf bits ≤ 971 := by
    unfold infinityBits at hbits
    unfold exponentOf
    omega
  have hmost := mantissaOf_add_one_le bits
  calc x ≤ (mantissaOf bits + 1 / 2) * 2 ^ exponentOf bits := h.high
    _ ≤ 2 ^ 53 * 2 ^ (971 : Int) :=
        mul_le_mul (by linarith) (zpow_le_zpow_right₀ one_le_two hexponent) (by positivity)
          (by positivity)
    _ = (2 ^ 16) ^ 64 := by
        rw [← pow_mul, ← zpow_natCast, ← zpow_add₀ two_ne_zero, ← zpow_natCast]
        rfl
    _ ≤ (10 ^ 5) ^ 64 := pow_le_pow_left₀ (by positivity) (by norm_num) 64
    _ < 10 ^ (321 : Int) := by
        rw [← pow_mul, ← zpow_natCast]
        exact zpow_lt_zpow_right₀ (by norm_num) (by norm_num)

theorem pow_lt (h : RoundsTo x bits) (hbits : 0 < bits) : (10 : ℚ) ^ (-331 : Int) < x := by
  have hmantissa : (1 : ℚ) ≤ mantissaOf bits := by exact_mod_cast mantissaOf_pos hbits
  have hreach := reachBelow_le bits
  calc (10 : ℚ) ^ (-331 : Int) < 10 ^ (-329 : Int) :=
        zpow_lt_zpow_right₀ (by norm_num) (by norm_num)
    _ = ((10 ^ 7) ^ 47)⁻¹ := by
        rw [← pow_mul, ← zpow_natCast, ← zpow_neg]
        rfl
    _ ≤ ((2 ^ 23) ^ 47)⁻¹ := by
        gcongr
        norm_num
    _ = 2 ^ (-1081 : Int) := by
        rw [← pow_mul, ← zpow_natCast, ← zpow_neg]
        rfl
    _ ≤ 2 ^ (-1075 : Int) := zpow_le_zpow_right₀ one_le_two (by norm_num)
    _ = 1 / 2 * 2 ^ (-1074 : Int) := by
        rw [one_div_mul_eq_div, ← half_zpow]
        rfl
    _ ≤ (mantissaOf bits - reachBelow bits) * 2 ^ exponentOf bits :=
        mul_le_mul (by linarith) (zpow_le_zpow_right₀ one_le_two (least_exponentOf bits))
          (by positivity) (by linarith)
    _ ≤ x := h.low

/-- **Digits that are rounded to a double are read as it.** -/
theorem ofScientific_eq (h : RoundsTo (mantissa * 10 ^ exponent) bits) (hpos : 0 < bits)
    (hbits : bits < infinityBits) (negative : Bool) :
    ofScientific negative mantissa exponent = signed negative bits := by
  have hlarge := h.lt_pow hbits
  have hsmall := h.pow_lt hpos
  have hmantissa : 0 < mantissa := by
    by_contra hzero
    rw [Nat.eq_zero_of_not_pos hzero, Nat.cast_zero, zero_mul] at hsmall
    exact absurd hsmall (not_lt.2 (by positivity))
  have hten : (0 : ℚ) < 10 ^ exponent := zpow_pos (by norm_num) _
  have hlow : ¬ ((toString mantissa).length : Int) + exponent < -330 := by
    intro hlt
    have hle : (mantissa : ℚ) * 10 ^ exponent ≤ 10 ^ (-331 : Int) := by
      calc (mantissa : ℚ) * 10 ^ exponent ≤ 10 ^ (toString mantissa).length * 10 ^ exponent := by
            gcongr
            exact_mod_cast (lt_pow_length mantissa).le
        _ = 10 ^ (((toString mantissa).length : Int) + exponent) := by
            rw [← zpow_natCast, ← zpow_add₀ (by norm_num)]
        _ ≤ 10 ^ (-331 : Int) := zpow_le_zpow_right₀ (by norm_num) (by omega)
    linarith
  have hhigh : ¬ 330 < ((toString mantissa).length : Int) + exponent := by
    intro hlt
    have hle : (10 : ℚ) ^ (321 : Int) ≤ mantissa * 10 ^ exponent := by
      calc (10 : ℚ) ^ (321 : Int) ≤
            10 ^ ((((toString mantissa).length - 1 : Nat) : Int) + exponent) :=
              zpow_le_zpow_right₀ (by norm_num) (by omega)
        _ = 10 ^ ((toString mantissa).length - 1) * 10 ^ exponent := by
            rw [zpow_add₀ (by norm_num), zpow_natCast]
        _ ≤ mantissa * 10 ^ exponent := by
            gcongr
            exact_mod_cast pow_length_le hmantissa
    linarith
  rw [← Span.cast_point] at h
  have hinside : ¬ (decide (mantissa = 0) ||
      decide (((toString mantissa).length : Int) + exponent < -330)) = true := by
    rw [Bool.or_eq_true, decide_eq_true_iff, decide_eq_true_iff]
    exact not_or.2 ⟨hmantissa.ne', hlow⟩
  rw [ofScientific, signed]
  simp only [if_neg hinside, if_neg hhigh]
  rw [h.nearestBits_eq (Nat.mul_pos hmantissa (Nat.pow_pos (by decide)))
    (Nat.pow_pos (by decide)) hbits]

end RoundsTo

end Decimal

end Apportion
