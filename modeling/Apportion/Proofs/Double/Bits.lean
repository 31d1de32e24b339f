/-
  The bits of a double tell it.

  * `pack_unpack`: what the bits of a double are taken for is packed into them again.
  * `ofBits_toBits`: a double is the one with its bits.
  * `eq_notANumber`: what is no number is one double.
  * `isNaN_of_lt`, `isInf_iff`: the bits from those of infinity on.
-/
import Apportion.Decimal.Reading
import Apportion.Proofs.Double.Rounding
import Mathlib.Data.List.Basic

namespace Apportion

namespace Double

open Float.Model Float.Model.UnpackedFloat

variable {b : BitVec Format.binary64.numBits} {x : Float}

/-! ## Parts of bits -/

theorem toNat_unpackExponent (b : BitVec Format.binary64.numBits) :
    (unpackExponent b).toNat = b.toNat / 2 ^ 52 % 2 ^ 11 := by
  rw [unpackExponent, BitVec.toNat_cast, BitVec.extractLsb_toNat, Nat.shiftRight_eq_div_pow]
  rfl

theorem toNat_unpackMantissa (b : BitVec Format.binary64.numBits) :
    (unpackMantissa b).toNat = b.toNat % 2 ^ 52 := by
  rw [unpackMantissa, BitVec.toNat_cast, BitVec.extractLsb_toNat, Nat.shiftRight_zero]
  rfl

theorem toBitVec_ofBitVec (s : BitVec 1) : (Sign.ofBitVec s).toBitVec = s := by
  unfold Sign.ofBitVec
  split
  · rename_i h
    exact h.symm
  · rename_i h
    exact (BitVec.eq_zero_or_eq_one s).resolve_left h |>.symm

/-- The parts of bits make them up. -/
theorem packComponents_unpack (b : BitVec Format.binary64.numBits) :
    packComponents Format.binary64 (Sign.ofBitVec (unpackSign b)) (unpackExponent b)
      (unpackMantissa b) = b := by
  rw [packComponents, toBitVec_ofBitVec]
  unfold unpackSign unpackExponent unpackMantissa
  ext i hi
  grind

/-- What makes up the parts of bits makes up the bits. -/
theorem packComponents_eq {e : BitVec 11} {m : BitVec 52} (he : unpackExponent b = e)
    (hm : unpackMantissa b = m) :
    packComponents Format.binary64 (Sign.ofBitVec (unpackSign b)) e m = b := by
  rw [← he, ← hm, packComponents_unpack]

theorem toNat_eq_iff {n : Nat} {v : BitVec n} {k : Nat} (hk : k < 2 ^ n) :
    v.toNat = k ↔ v = BitVec.ofNat n k := by
  rw [← BitVec.toNat_inj, BitVec.toNat_ofNat, Nat.mod_eq_of_lt hk]

/-! ## Packing -/

theorem pack_subnormal {s : Sign} {m : BitVec 52} (hpos : 0 < m.toNat) {e : Int} (he : e = -1074) :
    UnpackedFloat.pack Format.binary64 (.finite s m.toNat e hpos) =
      packComponents Format.binary64 s 0#11 m := by
  subst he
  have hbits : Format.binary64.mantissaBits = 53 := rfl
  have hbias : ((Format.binary64.exponentBias : Nat) : Int) = 1023 := rfl
  have hlog : m.toNat.log2 ≠ 52 := Nat.ne_of_lt ((Nat.log2_lt hpos.ne').2 m.isLt)
  unfold UnpackedFloat.pack
  simp [hbias, hbits, hlog]

theorem pack_normal {s : Sign} {e : BitVec 11} {m : BitVec 52} (he : e ≠ -1#11)
    (hpos : 0 < (1#1 ++ m).toNat) {e' : Int} (he' : e' = (e.toNat : Int) - 1075) :
    UnpackedFloat.pack Format.binary64 (.finite s (1#1 ++ m).toNat e' hpos) =
      packComponents Format.binary64 s e m := by
  subst he'
  have hbits : Format.binary64.mantissaBits = 53 := rfl
  have hbias : ((Format.binary64.exponentBias : Nat) : Int) = 1023 := rfl
  have hmantissa : (1#1 ++ m).toNat = 2 ^ 52 + m.toNat := by
    have hm := m.isLt
    rw [← toNat_append_ofNat (m := 2 ^ 52 + m.toNat) (by omega) (by omega)]
    congr 2
    rw [← BitVec.toNat_inj, BitVec.toNat_ofNat]
    omega
  have hlog : (1#1 ++ m).toNat.log2 = 52 := by
    have hm := m.isLt
    rw [hmantissa]
    exact log2_eq_52 (by omega) (by omega)
  have hfits : ¬ 2047 ≤ e.toNat := by
    have hlt := e.isLt
    have hne : e.toNat ≠ 2047 := fun h => he ((toNat_eq_iff (by decide)).1 h)
    omega
  have hexponent : ((e.toNat : Int) - 1075 + 1023 + 52).toNat = e.toNat := by omega
  have hrest : BitVec.ofNat 52 (1#1 ++ m).toNat = m := by
    rw [← BitVec.toNat_inj, BitVec.toNat_ofNat, hmantissa]
    have hm := m.isLt
    omega
  unfold UnpackedFloat.pack
  simp [hbias, hbits, hlog, hfits, hexponent, hrest]

/-- What the bits of a double are taken for is packed into them again. -/
theorem pack_unpack (h : Format.binary64.Valid b) :
    UnpackedFloat.pack Format.binary64 (unpack Format.binary64 b) = b := by
  have hbias : ((Format.binary64.exponentBias : Nat) : Int) = 1023 := rfl
  unfold UnpackedFloat.unpack
  dsimp only
  by_cases hexponent : unpackExponent b = -1#11
  · rw [if_pos hexponent]
    by_cases hmantissa : unpackMantissa b = 0#52
    · rw [if_pos hmantissa]
      exact packComponents_eq hexponent hmantissa
    · rw [if_neg hmantissa]
      exact (h.eq_packedNaN hexponent hmantissa).symm
  · rw [if_neg hexponent]
    by_cases hzero : unpackExponent b = 0#11
    · rw [if_pos hzero]
      by_cases hmantissa : unpackMantissa b = 0#52
      · rw [dif_pos hmantissa]
        exact packComponents_eq hzero hmantissa
      · rw [dif_neg hmantissa, pack_subnormal _ (by rw [hzero, hbias]; rfl)]
        exact packComponents_eq hzero rfl
    · rw [if_neg hzero, pack_normal hexponent _ (by rw [hbias]; omega)]
      exact packComponents_eq rfl rfl

theorem ofBits_toBits (x : Float) : Float.ofBits x.toBits = x := by
  obtain ⟨⟨bits, hvalid⟩⟩ := x
  have hbits : UInt64.ofBitVec (pack Format.binary64 (unpack Format.binary64 bits.toBitVec)) = bits :=
    congrArg UInt64.ofBitVec (pack_unpack hvalid)
  exact congrArg Float.ofModel ((Float.Model.mk.injEq ..).mpr hbits)

/-! ## No numbers -/

/-- What is no number is one double. -/
theorem eq_notANumber (h : x.isNaN) : x = Decimal.notANumber := by
  rw [← ofBits_toBits x]
  change Float.ofModel (Float.Model.pack x.toModel.unpack) = _
  change x.toModel.unpack.isNaN = true at h
  cases hx : x.toModel.unpack with
  | notANumber => decide +kernel
  | _ =>
    rw [hx] at h
    cases h

theorem isNaN_of_isInf (h : x.isInf) : x.isNaN = false := by
  change x.toModel.unpack.isInf = true at h
  change x.toModel.unpack.isNaN = false
  cases hx : x.toModel.unpack with
  | notANumber =>
    rw [hx] at h
    cases h
  | _ => rfl

/-- The parts of the bits that are all set. -/
theorem unpackExponent_eq_iff (b : BitVec Format.binary64.numBits) :
    unpackExponent b = -1#11 ↔ Decimal.infinityBits ≤ b.toNat % 2 ^ 63 := by
  have hones : unpackExponent b = -1#11 ↔ (unpackExponent b).toNat = 2047 :=
    (toNat_eq_iff (by decide)).symm
  rw [hones, toNat_unpackExponent, Decimal.infinityBits]
  omega

theorem unpackMantissa_eq_iff (h : unpackExponent b = -1#11) :
    unpackMantissa b = 0#52 ↔ b.toNat % 2 ^ 63 = Decimal.infinityBits := by
  have hones := (unpackExponent_eq_iff b).1 h
  rw [← toNat_eq_iff (by decide), toNat_unpackMantissa]
  unfold Decimal.infinityBits at hones ⊢
  omega

/-- Bits beyond those of infinity are no number. -/
theorem isNaN_of_lt (h : Decimal.infinityBits < x.toBits.toNat % 2 ^ 63) : x.isNaN := by
  have hexponent := (unpackExponent_eq_iff x.toBits.toBitVec).2 h.le
  have hmantissa := mt (unpackMantissa_eq_iff hexponent).1 h.ne'
  change (UnpackedFloat.unpack Format.binary64 x.toBits.toBitVec).isNaN = true
  unfold UnpackedFloat.unpack
  dsimp only
  rw [if_pos hexponent, if_neg hmantissa]
  rfl

theorem isInf_unpack_iff (b : BitVec Format.binary64.numBits) :
    (unpack Format.binary64 b).isInf ↔ b.toNat % 2 ^ 63 = Decimal.infinityBits := by
  unfold UnpackedFloat.unpack
  dsimp only
  by_cases hexponent : unpackExponent b = -1#11
  · rw [if_pos hexponent, ← unpackMantissa_eq_iff hexponent]
    by_cases hmantissa : unpackMantissa b = 0#52
    · rw [if_pos hmantissa]
      exact iff_of_true rfl hmantissa
    · rw [if_neg hmantissa]
      exact iff_of_false Bool.false_ne_true hmantissa
  · rw [if_neg hexponent]
    refine iff_of_false ?_ fun h => hexponent ((unpackExponent_eq_iff b).2 h.ge)
    by_cases hzero : unpackExponent b = 0#11
    · rw [if_pos hzero]
      by_cases hmantissa : unpackMantissa b = 0#52
      · rw [dif_pos hmantissa]
        exact Bool.false_ne_true
      · rw [dif_neg hmantissa]
        exact Bool.false_ne_true
    · rw [if_neg hzero]
      exact Bool.false_ne_true

/-- The bits of infinity, of either sign. -/
theorem isInf_iff : x.isInf ↔ x.toBits.toNat % 2 ^ 63 = Decimal.infinityBits :=
  isInf_unpack_iff x.toBits.toBitVec

end Double

end Apportion
