/-
  Rounding to double precision: a positive quotient and the mantissa it is rounded to.

  * `Decimal.roundDiv_le_roundDiv`: rounding is monotone.
  * `quotient`: a mantissa whose two bits more tell what the quotient has behind it; shifting it
    doubles what is divided by (`shiftRight_quotient`), and rounding it rounds the quotient
    (`roundedMantissa_quotient`).
  * `Full`, `place`: positive numbers with a mantissa of 53 bits, and where they stand.
  * `exists_full_of_quotient`: a quotient of enough bits is rounded to full precision.
  * `Full.unpack_pack`: the bits of such a number tell it.
-/
import Apportion.Decimal.Rounding
import Apportion.Powers
import Mathlib.Data.Nat.Log
import Mathlib.Tactic.Ring
import Mathlib.Tactic.SplitIfs

namespace Apportion

namespace Decimal

variable {num num' den : Nat}

theorem div_le_roundDiv : num / den ≤ roundDiv num den := by
  unfold roundDiv
  dsimp only
  split_ifs <;> omega

theorem roundDiv_le_div_add_one : roundDiv num den ≤ num / den + 1 := by
  unfold roundDiv
  dsimp only
  split_ifs <;> omega

/-- Rounding is monotone. -/
theorem roundDiv_le_roundDiv (h : num ≤ num') : roundDiv num den ≤ roundDiv num' den := by
  rcases Nat.lt_or_eq_of_le (Nat.div_le_div_right (c := den) h) with hlt | heq
  · calc roundDiv num den ≤ num / den + 1 := roundDiv_le_div_add_one
      _ ≤ num' / den := hlt
      _ ≤ roundDiv num' den := div_le_roundDiv
  · have hmod : num % den ≤ num' % den := by
      have hdiv := Nat.div_add_mod num den
      have hdiv' := Nat.div_add_mod num' den
      rw [heq] at hdiv
      omega
    unfold roundDiv
    dsimp only
    rw [heq]
    split_ifs <;> omega

/-- Rounding does not depend on the unit. -/
theorem roundDiv_mul_mul_left {c : Nat} (hc : 0 < c) :
    roundDiv (c * num) (c * den) = roundDiv num den := by
  have hmul : ∀ r, 2 * (c * r) = c * (2 * r) := fun r => Nat.mul_left_comm ..
  simp only [roundDiv, Nat.mul_div_mul_left _ _ hc, Nat.mul_mod_mul_left, hmul,
    Nat.mul_lt_mul_left hc]

theorem roundDiv_two_mul_le (h : num ≤ 2 * num') : roundDiv num (2 * den) ≤ roundDiv num' den :=
  (roundDiv_le_roundDiv h).trans_eq (roundDiv_mul_mul_left Nat.two_pos)

end Decimal

namespace Double

open Float.Model Float.Model.UnpackedFloat

/-! ## Mantissas with two bits more -/

/-- A quotient as a mantissa, with what is behind it told by two bits. -/
def quotient (num den : Nat) : ExtendedMantissa :=
  .ofMantissaAndAccuracy (num / den) (accuracyOfFraction (num % den) den)

theorem quotient_eq (num den : Nat) : quotient num den =
    ⟨num / den, decide (0 < num % den ∧ den ≤ 2 * (num % den)),
      decide (0 < num % den ∧ 2 * (num % den) ≠ den)⟩ := by
  unfold quotient accuracyOfFraction
  by_cases hzero : num % den = 0
  · simp [hzero, ExtendedMantissa.ofMantissaAndAccuracy]
  · rw [if_neg hzero]
    rcases Nat.lt_trichotomy (2 * (num % den)) den with h | h | h
    · rw [Nat.compare_eq_lt.2 h]
      simp [ExtendedMantissa.ofMantissaAndAccuracy]
      omega
    · rw [Nat.compare_eq_eq.2 h]
      simp [ExtendedMantissa.ofMantissaAndAccuracy]
      omega
    · rw [Nat.compare_eq_gt.2 h]
      simp [ExtendedMantissa.ofMantissaAndAccuracy]
      omega

/-- Halving a quotient doubles what it is divided by. -/
theorem shiftRightOne_quotient {num den : Nat} (h : 0 < den) :
    (quotient num den).shiftRightOne = quotient num (den * 2) := by
  have hmod := Nat.mod_lt num h
  have hdiv : num / (den * 2) = num / den / 2 := (Nat.div_div_eq_div_mul ..).symm
  have hrest : num % (den * 2) = num % den + den * (num / den % 2) := Nat.mod_mul
  have hbit : num / den % 2 = 0 ∧ den * (num / den % 2) = 0 ∨
      num / den % 2 = 1 ∧ den * (num / den % 2) = den := by
    rcases Nat.mod_two_eq_zero_or_one (num / den) with hbit | hbit <;> simp [hbit]
  have hround : (num / den % 2 != 0) =
      decide (0 < num % (den * 2) ∧ den * 2 ≤ 2 * (num % (den * 2))) := by
    refine (Bool.eq_iff_iff.2 ?_)
    rw [bne_iff_ne, decide_eq_true_iff]
    omega
  have hsticky : (decide (0 < num % den ∧ den ≤ 2 * (num % den)) ||
        decide (0 < num % den ∧ 2 * (num % den) ≠ den)) =
      decide (0 < num % (den * 2) ∧ 2 * (num % (den * 2)) ≠ den * 2) := by
    rw [← Bool.decide_or]
    refine decide_eq_decide.2 ?_
    omega
  rw [quotient_eq, quotient_eq, hdiv, ExtendedMantissa.shiftRightOne, hround, hsticky]

theorem shiftRight_quotient {num den : Nat} (h : 0 < den) (n : Nat) :
    quotient num den >>> n = quotient num (den * 2 ^ n) := by
  induction n with
  | zero =>
    rw [Nat.pow_zero, Nat.mul_one]
    rfl
  | succ n ih =>
    have hstep : quotient num den >>> (n + 1) = (quotient num den >>> n).shiftRightOne := rfl
    rw [hstep, ih, shiftRightOne_quotient (Nat.mul_pos h (Nat.two_pow_pos n)), Nat.pow_succ,
      Nat.mul_assoc]

/-- Rounding the mantissa rounds the quotient. -/
theorem roundedMantissa_quotient {num den : Nat} (h : 0 < den) :
    (quotient num den).roundedMantissa = Decimal.roundDiv num den := by
  rw [quotient_eq, ExtendedMantissa.roundedMantissa, Decimal.roundDiv]
  dsimp only
  split_ifs with hlt hgt
  · have hround : decide (0 < num % den ∧ den ≤ 2 * (num % den)) = false := by
      rw [decide_eq_false_iff_not]
      omega
    rw [hround]
    cases decide (0 < num % den ∧ 2 * (num % den) ≠ den) <;> rfl
  · have hround : decide (0 < num % den ∧ den ≤ 2 * (num % den)) = true := by
      rw [decide_eq_true_iff]
      omega
    have hsticky : decide (0 < num % den ∧ 2 * (num % den) ≠ den) = true := by
      rw [decide_eq_true_iff]
      omega
    rw [hround, hsticky]
    rfl
  · have hround : decide (0 < num % den ∧ den ≤ 2 * (num % den)) = true := by
      rw [decide_eq_true_iff]
      omega
    have hsticky : decide (0 < num % den ∧ 2 * (num % den) ≠ den) = false := by
      rw [decide_eq_false_iff_not]
      omega
    rw [hround, hsticky]
    rfl

/-! ## Rounding to full precision -/

/-- Mantissas of 53 bits. -/
theorem log2_eq_52 {m : Nat} (hleast : 2 ^ 52 ≤ m) (hbelow : m < 2 ^ 53) : m.log2 = 52 :=
  (Nat.log2_eq_iff (by omega)).2 ⟨hleast, hbelow⟩

/-- The exponent that numbers of a magnitude are rounded to. -/
theorem targetExponent_eq (t : Int) : Format.binary64.targetExponent t = max (t - 53) (-1074) :=
  rfl

/-- A positive number with a mantissa of 53 bits. -/
structure Full (u : UnpackedFloat) (m : Nat) (e : Int) : Prop where
  least : 2 ^ 52 ≤ m
  below : m < 2 ^ 53
  eq : ∃ hpos, u = .finite .positive m e hpos

/-- Where a number stands among those in full precision: the next larger one is at the next
    place. -/
def place (m : Nat) (e : Int) : Int := e * 2 ^ 52 + m

theorem place_of_carry (e : Int) : place (2 ^ 53) e = place (2 ^ 52) (e + 1) := by
  simp only [place]
  push_cast
  ring

section
variable {num den bits : Nat} {e : Int}

theorem shiftToTargetExponent_quotient (h : 0 < den) (hbits : (num / den).log2 = bits + 52)
    (he : -1074 ≤ e + bits) :
    shiftToTargetExponent Format.binary64 (num / den) e (accuracyOfFraction (num % den) den) =
      (quotient num (den * 2 ^ bits), e + bits) := by
  have htarget :
      (Format.binary64.targetExponent (totalExponent (num / den) e) - e).toNat = bits := by
    rw [targetExponent_eq, totalExponent, hbits]
    omega
  rw [shiftToTargetExponent, shiftToExponent]
  simp only [htarget]
  rw [← shiftRight_quotient h]
  rfl

theorem roundDiv_bounds (hbits : (num / den).log2 = bits + 52) :
    2 ^ 52 ≤ Decimal.roundDiv num (den * 2 ^ bits) ∧
      Decimal.roundDiv num (den * 2 ^ bits) ≤ 2 ^ 53 := by
  have hpos : num / den ≠ 0 := by
    intro hzero
    rw [hzero] at hbits
    simp at hbits
  obtain ⟨hlow, hhigh⟩ := (Nat.log2_eq_iff hpos).1 hbits
  have hdiv : num / (den * 2 ^ bits) = num / den / 2 ^ bits := (Nat.div_div_eq_div_mul ..).symm
  have hleast : 2 ^ 52 ≤ num / (den * 2 ^ bits) := by
    rw [hdiv, Nat.le_div_iff_mul_le (Nat.two_pow_pos bits), ← Nat.pow_add, Nat.add_comm]
    exact hlow
  have hbelow : num / (den * 2 ^ bits) < 2 ^ 53 := by
    rw [hdiv, Nat.div_lt_iff_lt_mul (Nat.two_pow_pos bits), ← Nat.pow_add, Nat.add_comm]
    exact hhigh
  exact ⟨hleast.trans Decimal.div_le_roundDiv, Decimal.roundDiv_le_div_add_one.trans hbelow⟩

/-- A mantissa that has come to 54 bits by rounding is halved. -/
theorem exists_full_of_shift {m : Nat} (hleast : 2 ^ 52 ≤ m) (hmost : m ≤ 2 ^ 53)
    (he : -1074 ≤ e) :
    ∃ m' e', (shiftToTargetExponent Format.binary64 m e .exact).1.mantissa = m' ∧
      (shiftToTargetExponent Format.binary64 m e .exact).2 = e' ∧
      2 ^ 52 ≤ m' ∧ m' < 2 ^ 53 ∧ place m' e' = place m e ∧ e ≤ e' ∧ e' ≤ e + 1 := by
  rcases Nat.lt_or_eq_of_le hmost with hlt | rfl
  · have hlog : m.log2 = 52 := log2_eq_52 hleast hlt
    have hshift : (Format.binary64.targetExponent (totalExponent m e) - e).toNat = 0 := by
      rw [targetExponent_eq, totalExponent, hlog]
      omega
    refine ⟨m, e, ?_, ?_, hleast, hlt, rfl, Int.le_refl e, by omega⟩ <;>
      simp only [shiftToTargetExponent, shiftToExponent, hshift]
    · rfl
    · simp
  · have hlog : (2 ^ 53).log2 = 53 := Nat.log2_two_pow
    have hshift : (Format.binary64.targetExponent (totalExponent (2 ^ 53) e) - e).toNat = 1 := by
      rw [targetExponent_eq, totalExponent, hlog]
      omega
    refine ⟨2 ^ 52, e + 1, ?_, ?_, Nat.le_refl _, by decide, (place_of_carry e).symm, by omega,
      Int.le_refl _⟩ <;>
      simp only [shiftToTargetExponent, shiftToExponent, hshift]
    · rfl
    · rfl

/-- **Rounding a quotient** to full precision: the place is that of the closest whole mantissa. -/
theorem exists_full_of_quotient (h : 0 < den) (hbits : (num / den).log2 = bits + 52)
    (he : -1074 ≤ e + bits) :
    ∃ m e', Full (roundWithAccuracy Format.binary64 .positive (num / den) e
        (accuracyOfFraction (num % den) den)) m e' ∧
      place m e' = place (Decimal.roundDiv num (den * 2 ^ bits)) (e + bits) ∧
      e + bits ≤ e' ∧ e' ≤ e + bits + 1 := by
  obtain ⟨hleast, hmost⟩ := roundDiv_bounds hbits
  obtain ⟨_, _, rfl, rfl, hlow, hhigh, hplace, hbounds⟩ := exists_full_of_shift hleast hmost he
  refine ⟨_, _, ⟨hlow, hhigh, by omega, ?_⟩, hplace, hbounds⟩
  have hround : (quotient num (den * 2 ^ bits)).roundedMantissa =
      Decimal.roundDiv num (den * 2 ^ bits) :=
    roundedMantissa_quotient (Nat.mul_pos h (Nat.two_pow_pos bits))
  unfold roundWithAccuracy
  rw [shiftToTargetExponent_quotient h hbits he]
  dsimp only
  rw [hround, dif_neg (by omega)]

end

/-! ## Bits -/

/-- The leading bit, which the bits leave out, and the others make up the mantissa. -/
theorem toNat_append_ofNat {m : Nat} (hleast : 2 ^ 52 ≤ m) (hbelow : m < 2 ^ 53) :
    (1#1 ++ BitVec.ofNat 52 m).toNat = m := by
  have hrest : m % 2 ^ 52 = m - 2 ^ 52 := by
    rw [Nat.mod_eq_sub_mod hleast, Nat.mod_eq_of_lt (by omega)]
  rw [BitVec.toNat_append, ← Nat.shiftLeft_add_eq_or_of_lt (BitVec.isLt _), BitVec.toNat_ofNat m,
    hrest, Nat.shiftLeft_eq]
  simp only [BitVec.toNat_ofNat]
  omega

theorem unpackSign_positive (e : BitVec 11) (m : BitVec 52) :
    unpackSign (packComponents Format.binary64 .positive e m) = 0#1 := by
  change BitVec.extractLsb' 63 1 (Sign.positive.toBitVec ++ e ++ m) = 0#1
  rw [BitVec.extractLsb'_append_eq_of_le (by omega), BitVec.extractLsb'_append_eq_of_le (by omega)]
  rfl

theorem finite_congr {s s' : Sign} {m m' : Nat} {e e' : Int} {h : 0 < m} {h' : 0 < m'} (hs : s = s')
    (hm : m = m') (he : e = e') : UnpackedFloat.finite s m e h = .finite s' m' e' h' := by
  subst hs hm he
  rfl

/-- The bits of a number in full precision, and the number that they tell. -/
theorem Full.unpack_pack {u : UnpackedFloat} {m : Nat} {e : Int} (h : Full u m e)
    (hlow : -1074 ≤ e) (hhigh : e ≤ 971) : (Float.Model.pack u).unpack = u := by
  obtain ⟨hleast, hbelow, hpos, rfl⟩ := h
  have hlog : m.log2 = 52 := log2_eq_52 hleast hbelow
  obtain ⟨biased, hbiased⟩ : ∃ biased : Nat, (biased : Int) = e + 1075 :=
    ⟨(e + 1075).toNat, Int.toNat_of_nonneg (by omega)⟩
  have hbits : Format.binary64.mantissaBits = 53 := rfl
  have hbias : ((Format.binary64.exponentBias : Nat) : Int) = 1023 := rfl
  have hpack : UnpackedFloat.pack Format.binary64 (.finite .positive m e hpos) =
      packComponents Format.binary64 .positive (BitVec.ofNat 11 biased) (BitVec.ofNat 52 m) := by
    have htoNat : (e + 1023 + 52).toNat = biased := by omega
    have hfits : ¬ 2047 ≤ biased := by omega
    unfold UnpackedFloat.pack
    simp [hbias, hbits, hlog, htoNat, hfits]
  have hexponent : (BitVec.ofNat 11 biased).toNat = biased := by
    rw [BitVec.toNat_ofNat]
    exact Nat.mod_eq_of_lt (by omega)
  have hfinite : BitVec.ofNat 11 biased ≠ -1#11 := by
    intro heq
    have := congrArg BitVec.toNat heq
    rw [hexponent] at this
    simp at this
    omega
  have hnormal : BitVec.ofNat 11 biased ≠ 0#11 := by
    intro heq
    have := congrArg BitVec.toNat heq
    rw [hexponent] at this
    simp at this
    omega
  unfold Float.Model.unpack Float.Model.pack
  dsimp only
  rw [hpack]
  unfold UnpackedFloat.unpack
  dsimp only
  rw [unpackExponent_packComponents, if_neg hfinite, if_neg hnormal]
  refine finite_congr ?_ ?_ ?_
  · rw [unpackSign_positive]
    rfl
  · rw [unpackMantissa_packComponents]
    exact toNat_append_ofNat hleast hbelow
  · rw [hexponent, hbias]
    omega

end Double

end Apportion
