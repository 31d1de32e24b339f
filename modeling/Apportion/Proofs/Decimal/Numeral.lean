/-
  Which texts write a number.

  * `Writes cs n`: one digit or more, with or without a plus sign in front, that write `n`.
  * `natural?_eq_some_iff`, `quantity?_eq_some_iff`: a reader finds a number iff the text writes it.
  * `writes_toString`: the digits of a number write it.
-/
import Apportion.Decimal.Numeral
import Mathlib.Data.List.Basic

namespace Apportion

namespace Decimal

variable {cs : List Char} {m n : Nat}

/-- One digit or more that write a number, with or without a plus sign in front.  Zeros in front do
    not count. -/
inductive Writes : List Char → Nat → Prop
  | digits {ds n} : ds ≠ [] → (∀ c ∈ ds, c.isDigit) → Nat.ofDigitChars 10 ds 0 = n → Writes ds n
  | signed {ds n} : ds ≠ [] → (∀ c ∈ ds, c.isDigit) → Nat.ofDigitChars 10 ds 0 = n →
      Writes ('+' :: ds) n

theorem digit?_eq (c : Char) : digit? c = if c.isDigit then some (c.toNat - '0'.toNat) else none := by
  have hdigit : ('0' ≤ c ∧ c ≤ '9') ↔ c.isDigit = true := by
    rw [Char.isDigit, Bool.and_eq_true, decide_eq_true_iff, decide_eq_true_iff]
    exact Iff.rfl
  simp only [digit?, hdigit]

theorem continue?_eq_some_iff : continue? m cs = some n ↔
    (∀ c ∈ cs, c.isDigit) ∧ Nat.ofDigitChars 10 cs m = n := by
  induction cs generalizing m with
  | nil => simp [continue?, Nat.ofDigitChars]
  | cons c cs ih =>
    rw [List.forall_mem_cons, Nat.ofDigitChars_cons, continue?, digit?_eq]
    by_cases hc : c.isDigit
    · rw [if_pos hc]
      dsimp only
      rw [ih, and_assoc, iff_and_self]
      exact fun _ => hc
    · rw [if_neg hc]
      simp [hc]

theorem natural?_eq_some_iff : natural? cs = some n ↔
    cs ≠ [] ∧ (∀ c ∈ cs, c.isDigit) ∧ Nat.ofDigitChars 10 cs 0 = n := by
  cases cs with
  | nil => simp [natural?]
  | cons c cs =>
    change continue? 0 (c :: cs) = some n ↔ _
    rw [continue?_eq_some_iff, iff_and_self]
    exact fun _ => List.cons_ne_nil c cs

/-- **Numbers up to a limit are read from the texts that write them.** -/
theorem unsigned?_eq_some_iff {limit : Nat} : unsigned? limit cs = some n ↔
    Writes cs n ∧ n ≤ limit := by
  unfold unsigned?
  rw [Option.filter_eq_some_iff, natural?_eq_some_iff, decide_eq_true_iff, and_congr_left_iff]
  intro _
  split
  · rename_i ds
    constructor
    · rintro ⟨hne, hdigits, hn⟩
      exact .signed hne hdigits hn
    · rintro (⟨-, hdigits, -⟩ | ⟨hne, hdigits, hn⟩)
      · exact absurd (hdigits '+' List.mem_cons_self) (by decide)
      · exact ⟨hne, hdigits, hn⟩
  · rename_i hplus
    constructor
    · rintro ⟨hne, hdigits, hn⟩
      exact .digits hne hdigits hn
    · rintro (⟨hne, hdigits, hn⟩ | ⟨-, -, -⟩)
      · exact ⟨hne, hdigits, hn⟩
      · exact absurd rfl (hplus _)

theorem quantity?_eq_some_iff {q : UInt64} : quantity? cs = some q ↔ Writes cs q.toNat := by
  rw [quantity?, Option.map_eq_some_iff]
  constructor
  · rintro ⟨n, hn, rfl⟩
    obtain ⟨hwrites, hle⟩ := unsigned?_eq_some_iff.1 hn
    rw [UInt64.toNat_ofNat', Nat.mod_eq_of_lt (by omega)]
    exact hwrites
  · intro h
    have := q.toNat_lt
    exact ⟨q.toNat, unsigned?_eq_some_iff.2 ⟨h, by omega⟩, UInt64.ofNat_toNat⟩

theorem isDigit_of_mem_toString {c : Char} (h : c ∈ (toString n).toList) : c.isDigit := by
  rw [Nat.toString_eq_ofList_toDigits, String.toList_ofList] at h
  exact Nat.isDigit_of_mem_toDigits (by decide) (by decide) h

/-- The digits of a number write it. -/
theorem writes_toString (n : Nat) : Writes (toString n).toList n := by
  have hdigits : (toString n).toList = Nat.toDigits 10 n := by
    rw [Nat.toString_eq_ofList_toDigits, String.toList_ofList]
  refine .digits ?_ (fun c => isDigit_of_mem_toString) ?_
  · rw [hdigits]
    exact Nat.toDigits_ne_nil
  · rw [hdigits]
    exact Nat.ofDigitChars_ten_toDigits

end Decimal

end Apportion
