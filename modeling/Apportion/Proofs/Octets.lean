/-
  Octets and the numbers that they stand for.

  * `bigEndian_ofBigEndian`, `littleEndian_ofLittleEndian`: octets are those of their number.
  * `littleEndian_eq_map`: each octet of a number by itself.
  * `length_flatMap_le`: fewer items are stored in fewer octets.
-/
import Apportion.Octets
import Mathlib.Algebra.Order.BigOperators.Group.List
import Mathlib.Algebra.Order.Group.Nat
import Mathlib.Data.List.Induction
import Mathlib.Data.List.Perm.Subperm

namespace Apportion

namespace Octets

/-! ## Most significant octet first -/

theorem ofBigEndian_lt (o : Octets) : ofBigEndian o < 256 ^ o.length := by
  induction o using List.reverseRecOn with
  | nil => decide
  | append_singleton o b ih =>
    have hb := b.toNat_lt
    rw [ofBigEndian_append_singleton, List.length_append, List.length_singleton, Nat.pow_succ]
    omega

theorem bigEndian_ofBigEndian (o : Octets) : bigEndian o.length (ofBigEndian o) = o := by
  induction o using List.reverseRecOn with
  | nil => rfl
  | append_singleton o b ih =>
    have hb := b.toNat_lt
    have hq : (256 * ofBigEndian o + b.toNat) / 256 = ofBigEndian o := by omega
    have hr : UInt8.ofNat (256 * ofBigEndian o + b.toNat) = b := by
      refine UInt8.toNat_inj.1 ?_
      rw [UInt8.toNat_ofNat']
      omega
    rw [ofBigEndian_append_singleton, List.length_append, List.length_singleton, bigEndian, hq, hr,
      ih]

/-! ## Least significant octet first -/

theorem ofLittleEndian_lt (o : Octets) : ofLittleEndian o < 256 ^ o.length := by
  induction o with
  | nil => decide
  | cons b o ih =>
    have hb := b.toNat_lt
    rw [ofLittleEndian, List.length_cons, Nat.pow_succ]
    omega

theorem littleEndian_ofLittleEndian (o : Octets) : littleEndian o.length (ofLittleEndian o) = o := by
  induction o with
  | nil => rfl
  | cons b o ih =>
    have hb := b.toNat_lt
    have hq : (b.toNat + 256 * ofLittleEndian o) / 256 = ofLittleEndian o := by omega
    have hr : UInt8.ofNat (b.toNat + 256 * ofLittleEndian o) = b := by
      refine UInt8.toNat_inj.1 ?_
      rw [UInt8.toNat_ofNat']
      omega
    rw [List.length_cons, ofLittleEndian, littleEndian, hq, hr, ih]

theorem littleEndian_eq_map (w n : Nat) :
    littleEndian w n = (List.range w).map fun i => UInt8.ofNat (n / 256 ^ i) := by
  induction w generalizing n with
  | zero => rfl
  | succ w ih =>
    rw [littleEndian, ih, List.range_succ_eq_map, List.map_cons, List.map_map, Nat.pow_zero,
      Nat.div_one]
    congr 1
    refine List.map_congr_left fun i _ => ?_
    rw [Function.comp_apply, Nat.pow_succ', Nat.div_div_eq_div_mul]

/-! ## Items one after the other -/

/-- Fewer items are stored in fewer octets. -/
theorem length_flatMap_le {α : Type} (octets : α → Octets) {items more : List α}
    (h : items.Subperm more) : (items.flatMap octets).length ≤ (more.flatMap octets).length := by
  obtain ⟨mid, hperm, hsub⟩ := h
  have hle := (hsub.map fun a => (octets a).length).sum_le_sum fun _ _ => Nat.zero_le _
  rw [(hperm.map fun a => (octets a).length).sum_eq] at hle
  rwa [List.length_flatMap, List.length_flatMap]

end Octets

end Apportion
