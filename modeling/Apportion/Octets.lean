/-
  Octet strings, and natural numbers written in a fixed number of octets.

  * `bigEndian w n` and `littleEndian w n` write `n` in `w` octets; `ofBigEndian`
    and `ofLittleEndian` read such a numeral back.
  * `splitAt?` cuts a counted prefix off an octet string.
  * `ofBigEndian_bigEndian`, `ofLittleEndian_littleEndian`: a number that fits
    its width is read back as written.
  * `splitAt?_eq_some_iff`: a cut succeeds exactly on a prefix of that length.
-/
import Apportion.Powers

namespace Apportion

/-- A string of octets: the contents of a file. -/
abbrev Octets := List UInt8

namespace Octets

/-! ## Most significant octet first -/

/-- `n` modulo `256 ^ w`, in `w` octets, most significant first. -/
def bigEndian : (w n : Nat) → Octets
  | 0, _ => []
  | w + 1, n => bigEndian w (n / 256) ++ [UInt8.ofNat n]

/-- The number an octet string denotes, most significant octet first. -/
def ofBigEndian (o : Octets) : Nat :=
  o.foldl (fun n b => 256 * n + b.toNat) 0

@[simp] theorem length_bigEndian (w n : Nat) : (bigEndian w n).length = w := by
  induction w generalizing n with
  | zero => rfl
  | succ w ih => simp [bigEndian, ih]

theorem ofBigEndian_append_singleton (o : Octets) (b : UInt8) :
    ofBigEndian (o ++ [b]) = 256 * ofBigEndian o + b.toNat := by
  simp [ofBigEndian, List.foldl_append]

theorem ofBigEndian_bigEndian {w n : Nat} (h : n < 256 ^ w) :
    ofBigEndian (bigEndian w n) = n := by
  induction w generalizing n with
  | zero => simp [bigEndian, ofBigEndian]; omega
  | succ w ih =>
    have hq : n / 256 < 256 ^ w := by
      rw [Nat.div_lt_iff_lt_mul (by decide)]; rwa [Nat.pow_succ] at h
    rw [bigEndian, ofBigEndian_append_singleton, ih hq]
    have := Nat.div_add_mod n 256
    simpa using this

/-! ## Least significant octet first -/

/-- `n` modulo `256 ^ w`, in `w` octets, least significant first. -/
def littleEndian : (w n : Nat) → Octets
  | 0, _ => []
  | w + 1, n => UInt8.ofNat n :: littleEndian w (n / 256)

/-- The number an octet string denotes, least significant octet first. -/
def ofLittleEndian : Octets → Nat
  | [] => 0
  | b :: o => b.toNat + 256 * ofLittleEndian o

@[simp] theorem length_littleEndian (w n : Nat) : (littleEndian w n).length = w := by
  induction w generalizing n with
  | zero => rfl
  | succ w ih => simp [littleEndian, ih]

theorem ofLittleEndian_littleEndian {w n : Nat} (h : n < 256 ^ w) :
    ofLittleEndian (littleEndian w n) = n := by
  induction w generalizing n with
  | zero => simp [littleEndian, ofLittleEndian]; omega
  | succ w ih =>
    have hq : n / 256 < 256 ^ w := by
      rw [Nat.div_lt_iff_lt_mul (by decide)]; rwa [Nat.pow_succ] at h
    rw [littleEndian, ofLittleEndian, ih hq]
    have := Nat.mod_add_div n 256
    simpa using this

/-! ## Counted prefixes -/

/-- The first `n` octets and what follows them, or nothing if there are fewer. -/
def splitAt? (n : Nat) (o : Octets) : Option (Octets × Octets) :=
  if (o.take n).length = n then some (o.take n, o.drop n) else none

theorem splitAt?_eq_some_iff {n : Nat} {o front back : Octets} :
    splitAt? n o = some (front, back) ↔ o = front ++ back ∧ front.length = n := by
  unfold splitAt?
  constructor
  · intro h
    split at h
    · rename_i hn
      simp only [Option.some.injEq, Prod.mk.injEq] at h
      obtain ⟨rfl, rfl⟩ := h
      exact ⟨(List.take_append_drop n o).symm, hn⟩
    · cases h
  · rintro ⟨rfl, rfl⟩
    simp

theorem splitAt?_eq_none_iff {n : Nat} {o : Octets} : splitAt? n o = none ↔ o.length < n := by
  simp only [splitAt?, List.length_take, ite_eq_right_iff, reduceCtorEq, imp_false]
  omega

end Octets

end Apportion
