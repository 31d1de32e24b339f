/-
  Numbers in digits with a point among them.

  * `Pointed`: digits in front of a point, no zero first unless alone, and digits behind it.
  * `Pointed.double?_text`: such a text is read as a mantissa times a power of ten.
  * `exists_pointed_positional`: digits times a power of ten are written out as such a text, with a
    fraction put behind them where there is none.
-/
import Apportion.Decimal.Reading
import Apportion.Decimal.Shortest
import Apportion.Proofs.Decimal.Numeral
import Apportion.Proofs.Decimal.Padded
import Apportion.Proofs.Decimal.Shortest
import Mathlib.Data.List.TakeWhile

namespace Apportion

namespace Decimal

/-! ## Digits -/

theorem isDigit_eq (c : Char) : isDigit c = c.isDigit := by
  rw [isDigit, digit?_eq]
  split
  · rename_i h
    exact h.symm
  · rename_i h
    exact (Bool.eq_false_iff.2 h).symm

theorem valueOf_eq {ds : List Char} (h : ∀ c ∈ ds, c.isDigit) :
    valueOf ds = Nat.ofDigitChars 10 ds 0 := by
  rw [valueOf, continue?_eq_some_iff.2 ⟨h, rfl⟩]
  rfl

theorem toList_toString (n : Nat) : (toString n).toList = Nat.toDigits 10 n := by
  rw [Nat.toString_eq_ofList_toDigits, String.toList_ofList]

/-- A number that is not zero is written without a zero first. -/
theorem head?_toDigits_ne {n : Nat} (h : 0 < n) : (Nat.toDigits 10 n).head? ≠ some '0' := by
  intro hhead
  obtain ⟨ds, hds⟩ := List.head?_eq_some_iff.1 hhead
  have hn : Nat.ofDigitChars 10 ds 0 = n := by
    have hall := Nat.ofDigitChars_ten_toDigits (n := n)
    rw [hds, ofDigitChars_cons] at hall
    simpa using hall
  have hdigits : ∀ c ∈ ds, c.isDigit := fun c hc =>
    Nat.isDigit_of_mem_toDigits (by decide) (by decide) (hds ▸ List.mem_cons_of_mem _ hc)
  have hlt := ofDigitChars_lt hdigits
  rw [hn] at hlt
  have hlength : 0 < ds.length := by
    rcases Nat.eq_zero_or_pos ds.length with hzero | hpos
    · rw [hzero] at hlt
      omega
    · exact hpos
  have hle := (Nat.length_toDigits_le_iff (by decide) hlength).2 hlt
  rw [hds, List.length_cons] at hle
  omega

/-! ## Numbers with a point -/

/-- A number in digits with a point among them. -/
structure Pointed where
  whole : List Char
  fraction : List Char
  whole_digits : ∀ c ∈ whole, c.isDigit
  fraction_digits : ∀ c ∈ fraction, c.isDigit
  whole_ne_nil : whole ≠ []
  fraction_ne_nil : fraction ≠ []
  /-- There is no zero in front. -/
  lead : whole.head? ≠ some '0' ∨ whole.length = 1

namespace Pointed

/-- The text of the number. -/
def text (p : Pointed) : List Char := p.whole ++ '.' :: p.fraction

/-- The number without its point. -/
def mantissa (p : Pointed) : Nat := Nat.ofDigitChars 10 (p.whole ++ p.fraction) 0

/-- The number of digits behind the point, as the power of ten that they are divided by. -/
def exponent (p : Pointed) : Int := -(p.fraction.length : Int)

variable (p : Pointed)

theorem digits : ∀ c ∈ p.whole ++ p.fraction, c.isDigit :=
  fun c hc => (List.mem_append.1 hc).elim (p.whole_digits c) (p.fraction_digits c)

theorem point_mem_text : '.' ∈ p.text := List.mem_append_right _ List.mem_cons_self

/-- The first character is a digit. -/
theorem exists_text_eq : ∃ c cs, p.text = c :: cs ∧ c.isDigit := by
  obtain ⟨c, cs, hwhole⟩ := List.exists_cons_of_ne_nil p.whole_ne_nil
  exact ⟨c, cs ++ '.' :: p.fraction, by rw [text, hwhole]; rfl,
    p.whole_digits c (hwhole ▸ List.mem_cons_self)⟩

theorem takeWhile_whole : p.text.takeWhile isDigit = p.whole := by
  rw [text, List.takeWhile_append_of_pos fun c hc => (isDigit_eq c).trans (p.whole_digits c hc)]
  exact List.append_nil _

theorem dropWhile_whole : p.text.dropWhile isDigit = '.' :: p.fraction := by
  rw [text, List.dropWhile_append_of_pos fun c hc => (isDigit_eq c).trans (p.whole_digits c hc)]
  rfl

theorem takeWhile_fraction : p.fraction.takeWhile isDigit = p.fraction :=
  List.takeWhile_eq_self_iff.2 fun c hc => (isDigit_eq c).trans (p.fraction_digits c hc)

theorem dropWhile_fraction : p.fraction.dropWhile isDigit = [] :=
  List.dropWhile_eq_nil_iff.2 fun c hc => (isDigit_eq c).trans (p.fraction_digits c hc)

theorem magnitude?_text (negative : Bool) :
    magnitude? negative p.text = some (ofScientific negative p.mantissa p.exponent) := by
  have hsome : (p.whole.isEmpty && p.fraction.isEmpty) = false := by
    rw [List.isEmpty_eq_false_iff.2 p.whole_ne_nil, Bool.false_and]
  rw [magnitude?]
  simp only [takeWhile_whole, dropWhile_whole, takeWhile_fraction, dropWhile_fraction, hsome,
    valueOf_eq p.digits]
  rw [mantissa, exponent, ← Int.zero_sub]
  rfl

/-- A sign in front of a number. -/
def sign (negative : Bool) : List Char := if negative then ['-'] else []

/-- A text with a point is no word for infinity or for no number. -/
theorem lowered_ne {word : String} (h : '.' ∉ word.toList) : lowered p.text ≠ word.toList := by
  intro heq
  refine h (heq ▸ ?_)
  exact List.mem_map_of_mem (f := Char.toLower) p.point_mem_text

/-- **A text with a point is read** as its digits times a power of ten. -/
theorem double?_text (negative : Bool) :
    double? (sign negative ++ p.text) = some (ofScientific negative p.mantissa p.exponent) := by
  have hbody : ∀ negative, (if lowered p.text = "inf".toList ∨ lowered p.text = "infinity".toList
      then some (infinite negative)
      else if lowered p.text = "nan".toList then some notANumber
      else magnitude? negative p.text) = some (ofScientific negative p.mantissa p.exponent) := by
    intro negative
    rw [if_neg (not_or.2 ⟨p.lowered_ne (by decide), p.lowered_ne (by decide)⟩),
      if_neg (p.lowered_ne (by decide)), magnitude?_text]
  cases negative with
  | true => exact hbody true
  | false =>
    have hfalse := hbody false
    obtain ⟨c, cs, htext, hc⟩ := p.exists_text_eq
    rw [sign, if_neg Bool.false_ne_true, List.nil_append]
    rw [htext] at hfalse ⊢
    unfold double?
    split
    rename_i hunsigned
    split at hunsigned
    · rename_i hminus
      rw [(List.cons.inj hminus).1] at hc
      cases hc
    · rename_i hplus
      rw [(List.cons.inj hplus).1] at hc
      cases hc
    · cases hunsigned
      exact hfalse

end Pointed

/-! ## Writing numbers out -/

section
variable {digits : Nat} {j : Int}

/-- Zeros behind digits. -/
theorem toList_positional_of_nonneg (hj : 0 ≤ j) : (positional digits j).toList =
    Nat.toDigits 10 digits ++ List.replicate j.toNat '0' := by
  rw [positional, if_pos hj, String.toList_ofList, toList_toString]

/-- A point among digits, with zeros in front of them as needed. -/
theorem toList_positional_of_neg (hj : ¬ 0 ≤ j) :
    let cs := (padded ((-j).toNat + 1) digits).toList
    (positional digits j).toList =
      cs.take (cs.length - (-j).toNat) ++ '.' :: cs.drop (cs.length - (-j).toNat) := by
  rw [positional, if_neg hj, String.toList_ofList, toList_padded, toList_toString,
    Nat.toString_eq_ofList_toDigits, String.length_ofList]

/-- Zero, with a point. -/
def zeroPointed : Pointed where
  whole := ['0']
  fraction := ['0']
  whole_digits := List.forall_mem_singleton.2 rfl
  fraction_digits := List.forall_mem_singleton.2 rfl
  whole_ne_nil := List.cons_ne_nil _ _
  fraction_ne_nil := List.cons_ne_nil _ _
  lead := Or.inr rfl

/-- The number with a zero behind the point. -/
def wholePointed (hpos : 0 < digits) (zeros : Nat) : Pointed where
  whole := Nat.toDigits 10 digits ++ List.replicate zeros '0'
  fraction := ['0']
  whole_digits c hc := by
    rcases List.mem_append.1 hc with h | h
    · exact Nat.isDigit_of_mem_toDigits (by decide) (by decide) h
    · rw [List.eq_of_mem_replicate h]
      rfl
  fraction_digits := List.forall_mem_singleton.2 rfl
  whole_ne_nil h := Nat.toDigits_ne_nil (List.append_eq_nil_iff.1 h).1
  fraction_ne_nil := List.cons_ne_nil _ _
  lead := Or.inl (by
    rw [List.head?_append_of_ne_nil _ Nat.toDigits_ne_nil]
    exact head?_toDigits_ne hpos)

theorem le_length_padded (width n : Nat) : width ≤ (padded width n).toList.length := by
  rw [toList_padded, List.length_append, List.length_replicate, ← toList_toString,
    String.length_toList]
  omega

/-- The digits in front of the last ones, of which there are more in all. -/
theorem lead_padded (hpos : 0 < digits) {places : Nat} :
    let cs := (padded (places + 1) digits).toList
    (cs.take (cs.length - places)).head? ≠ some '0' ∨ (cs.take (cs.length - places)).length = 1 := by
  intro cs
  have hcs : cs = List.replicate (places + 1 - (toString digits).length) '0' ++
    Nat.toDigits 10 digits := toList_padded ..
  have hlength : (Nat.toDigits 10 digits).length = (toString digits).length := by
    rw [← toList_toString, String.length_toList]
  have hall : places + 1 ≤ cs.length := le_length_padded ..
  by_cases hfits : (toString digits).length ≤ places
  · right
    rw [List.length_take, hcs, List.length_append, List.length_replicate, hlength]
    omega
  · left
    have hzeros : places + 1 - (toString digits).length = 0 := by omega
    rw [hzeros] at hcs
    rw [List.head?_take, if_neg (by omega), hcs]
    exact head?_toDigits_ne hpos

/-- The number with a point in front of the last digits. -/
def partPointed (hpos : 0 < digits) {places : Nat} (hplaces : 0 < places) : Pointed where
  whole :=
    let cs := (padded (places + 1) digits).toList
    cs.take (cs.length - places)
  fraction :=
    let cs := (padded (places + 1) digits).toList
    cs.drop (cs.length - places)
  whole_digits c hc := isDigit_of_mem_padded (List.mem_of_mem_take hc)
  fraction_digits c hc := isDigit_of_mem_padded (List.mem_of_mem_drop hc)
  whole_ne_nil := by
    have hall := le_length_padded (places + 1) digits
    rw [← List.length_pos_iff, List.length_take]
    omega
  fraction_ne_nil := by
    have hall := le_length_padded (places + 1) digits
    rw [← List.length_pos_iff, List.length_drop]
    omega
  lead := lead_padded hpos

/-- **Digits times a power of ten are written out** as a number with a point; where it has no
    fraction, one is put behind it. -/
theorem exists_pointed_positional (hpos : 0 < digits) (j : Int) : ∃ p : Pointed,
    ((positional digits j).toList = p.text ∨
      '.' ∉ (positional digits j).toList ∧ (positional digits j).toList ++ ".0".toList = p.text) ∧
    (p.mantissa : ℚ) * 10 ^ p.exponent = digits * 10 ^ j := by
  by_cases hj : 0 ≤ j
  · refine ⟨wholePointed hpos j.toNat, Or.inr ?_, ?_⟩
    · rw [toList_positional_of_nonneg hj]
      refine ⟨fun h => ?_, rfl⟩
      have hpoint := (wholePointed hpos j.toNat).whole_digits '.' h
      cases hpoint
    · have hmantissa : (wholePointed hpos j.toNat).mantissa = 10 * (10 ^ j.toNat * digits) := by
        change Nat.ofDigitChars 10 ((_ ++ _) ++ ['0']) 0 = _
        rw [Nat.ofDigitChars_append, Nat.ofDigitChars_append, Nat.ofDigitChars_ten_toDigits,
          Nat.ofDigitChars_replicate_zero]
        rfl
      have hexponent : (wholePointed hpos j.toNat).exponent = -1 := rfl
      have hpower : (10 : ℚ) ^ j = 10 ^ j.toNat := by
        rw [← zpow_natCast, Int.toNat_of_nonneg hj]
      rw [hmantissa, hexponent, hpower]
      push_cast
      rw [zpow_neg_one]
      ring
  · have hplaces : 0 < (-j).toNat := by omega
    refine ⟨partPointed hpos hplaces, Or.inl (toList_positional_of_neg hj), ?_⟩
    have hmantissa : (partPointed hpos hplaces).mantissa = digits := by
      rw [Pointed.mantissa, partPointed, List.take_append_drop, ofDigitChars_padded]
    have hexponent : (partPointed hpos hplaces).exponent = j := by
      have hall := le_length_padded ((-j).toNat + 1) digits
      rw [Pointed.exponent, partPointed, List.length_drop]
      omega
    rw [hmantissa, hexponent]

end

end Decimal

end Apportion
