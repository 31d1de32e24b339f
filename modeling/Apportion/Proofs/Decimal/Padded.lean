/-
  Numbers padded with zeros, read as texts.

  * `ofDigitChars_padded`: the digits still write the number, so that `padded` is injective.
  * `length_padded`: a number that fits the width has just that many digits.
  * `append_lt_append_of_ofDigitChars_lt`: among numerals of one length, the texts are in the order of
    the numbers, whatever follows them.
  * `padded_append_lt`: so are padded numbers that fit the width.
-/
import Apportion.Decimal.Numeral
import Mathlib.Data.List.Basic

namespace Apportion

namespace Decimal

variable {width m n : Nat}

theorem toList_padded (width n : Nat) : (padded width n).toList =
    List.replicate (width - (toString n).length) '0' ++ Nat.toDigits 10 n := by
  rw [padded, String.toList_append, String.toList_ofList, Nat.toString_eq_ofList_toDigits,
    String.toList_ofList]

/-- Zeros in front do not change the number that digits write. -/
theorem ofDigitChars_padded (width n : Nat) : Nat.ofDigitChars 10 (padded width n).toList 0 = n := by
  rw [toList_padded, Nat.ofDigitChars_append, Nat.ofDigitChars_replicate_zero, Nat.mul_zero,
    Nat.ofDigitChars_ten_toDigits]

theorem padded_injective (width : Nat) : Function.Injective (padded width) := by
  intro m n h
  rw [← ofDigitChars_padded width m, h, ofDigitChars_padded]

theorem isDigit_of_mem_padded {c : Char} (h : c ∈ (padded width n).toList) : c.isDigit := by
  rw [toList_padded, List.mem_append] at h
  rcases h with h | h
  · rw [List.eq_of_mem_replicate h]
    rfl
  · exact Nat.isDigit_of_mem_toDigits (by decide) (by decide) h

theorem length_padded (hwidth : 0 < width) (h : n < 10 ^ width) :
    (padded width n).toList.length = width := by
  have hlength : (toString n).length = (Nat.toDigits 10 n).length := by
    rw [Nat.toString_eq_ofList_toDigits, String.length_ofList]
  have hfits := (Nat.length_toDigits_le_iff (by decide) hwidth).2 h
  rw [toList_padded, List.length_append, List.length_replicate, hlength, Nat.sub_add_cancel hfits]

/-! ## Order -/

theorem toNat_of_isDigit {c : Char} (h : c.isDigit) : 48 ≤ c.toNat ∧ c.toNat ≤ 57 := by
  rw [Char.isDigit, Bool.and_eq_true, decide_eq_true_iff, decide_eq_true_iff] at h
  exact h

theorem ofDigitChars_cons (d : Char) (ds : List Char) : Nat.ofDigitChars 10 (d :: ds) 0 =
    10 ^ ds.length * (d.toNat - 48) + Nat.ofDigitChars 10 ds 0 := by
  rw [Nat.ofDigitChars_cons, Nat.ofDigitChars_eq_ofDigitChars_zero, Nat.mul_zero, Nat.zero_add]
  rfl

/-- Digits write a number below the power of ten that has one digit more. -/
theorem ofDigitChars_lt {ds : List Char} (hds : ∀ c ∈ ds, c.isDigit) :
    Nat.ofDigitChars 10 ds 0 < 10 ^ ds.length := by
  induction ds with
  | nil => decide
  | cons d ds ih =>
    obtain ⟨hd, hds⟩ := List.forall_mem_cons.1 hds
    have hlast := ih hds
    have hdigit : d.toNat - 48 ≤ 9 := Nat.sub_le_of_le_add (toNat_of_isDigit hd).2
    have hfirst := Nat.mul_le_mul_left (10 ^ ds.length) hdigit
    rw [ofDigitChars_cons, List.length_cons, Nat.pow_succ]
    omega

/-- Digits of one length are ordered as the numbers that they write, whatever follows them. -/
theorem append_lt_append_of_ofDigitChars_lt {ds es more : List Char} (hlength : ds.length = es.length)
    (hds : ∀ c ∈ ds, c.isDigit) (hes : ∀ c ∈ es, c.isDigit)
    (h : Nat.ofDigitChars 10 ds 0 < Nat.ofDigitChars 10 es 0) : ds ++ more < es ++ more := by
  induction ds generalizing es with
  | nil =>
    rw [List.eq_nil_of_length_eq_zero hlength.symm] at h
    exact absurd h (Nat.lt_irrefl _)
  | cons d ds ih =>
    obtain ⟨e, es, rfl⟩ := List.exists_cons_of_length_eq_add_one hlength.symm
    obtain ⟨hd, hds⟩ := List.forall_mem_cons.1 hds
    obtain ⟨he, hes⟩ := List.forall_mem_cons.1 hes
    have hlength : ds.length = es.length := Nat.succ.inj hlength
    rw [ofDigitChars_cons, ofDigitChars_cons, hlength] at h
    rw [List.cons_append, List.cons_append, List.cons_lt_cons_iff]
    rcases Nat.lt_trichotomy d.toNat e.toNat with hlt | heq | hgt
    · exact Or.inl hlt
    · rw [heq] at h
      exact Or.inr ⟨Char.toNat_inj.1 heq, ih hlength hds hes (Nat.lt_of_add_lt_add_left h)⟩
    · -- a larger first digit outweighs all that follows
      have hlast := ofDigitChars_lt hes
      have hdigit : e.toNat - 48 + 1 ≤ d.toNat - 48 := by
        have := (toNat_of_isDigit he).1
        omega
      have hfirst := Nat.mul_le_mul_left (10 ^ es.length) hdigit
      rw [Nat.mul_add] at hfirst
      omega

/-- **Padded numbers that fit the width are in order**, whatever follows them. -/
theorem padded_append_lt (hmn : m < n) (h : n < 10 ^ width) (more : List Char) :
    (padded width m).toList ++ more < (padded width n).toList ++ more := by
  have hwidth : 0 < width := by
    rcases Nat.eq_zero_or_pos width with rfl | hwidth
    · omega
    · exact hwidth
  refine append_lt_append_of_ofDigitChars_lt ?_ (fun _ => isDigit_of_mem_padded)
    (fun _ => isDigit_of_mem_padded) ?_
  · rw [length_padded hwidth h, length_padded hwidth (Nat.lt_trans hmn h)]
  · rw [ofDigitChars_padded, ofDigitChars_padded]
    exact hmn

end Decimal

end Apportion
