/-
  Numbers as words of a document.

  * `Stops`: what may follow a value that is written.
  * `Scalar.read?_word`: what a word stands for is read, and what follows it is left.
  * `Moment.isMoment_eq_false`: a word without a colon, and without a dash behind its first character, is no
    date and no time.
  * `Scalar.read?_natural`, `Literal.read?_writeReal`: the words that are written for numbers are read
    as them.
-/
import Apportion.Proofs.Decimal.Pointed
import Apportion.Proofs.Double.Bits
import Apportion.Proofs.Text.Blank
import Apportion.Toml.Scalar
import Apportion.Toml.Writing

namespace Apportion

namespace Toml

/-- What may follow a value that is written: a comma, a bracket, the end of a line or nothing. -/
def Stops (rest : List Char) : Prop := ∀ c ∈ rest.head?, c = ',' ∨ c = ']' ∨ c = '\n'

namespace Moment

variable {cs rest : List Char} {n low high : Nat}

theorem skip?_eq_none {c : Char} (h : c ∉ cs) : skip? c cs = none := by
  cases cs with
  | nil => rfl
  | cons d ds =>
    rw [skip?, if_neg]
    rintro rfl
    exact h List.mem_cons_self

/-- A date has a dash behind its year. -/
theorem afterDate?_eq_none (h : '-' ∉ cs.tail) : afterDate? cs = none := by
  match cs, h with
  | a :: b :: c :: d :: rest, h =>
    have hrest : '-' ∉ rest := fun hmem => h (by simp [hmem])
    rw [afterDate?]
    cases Decimal.natural? [a, b, c, d] with
    | none => rfl
    | some year => rw [Option.bind_eq_bind, Option.bind_some, skip?_eq_none hrest]; rfl
  | [], _ | [_], _ | [_, _], _ | [_, _, _], _ => rfl

/-- A time of day has a colon behind its hour. -/
theorem afterTime?_eq_none (h : ':' ∉ cs) : afterTime? cs = none := by
  rw [afterTime?]
  cases htwo : two? 0 23 cs with
  | none => rfl
  | some hour =>
    obtain ⟨n, rest⟩ := hour
    have hrest : ':' ∉ rest := by
      unfold two? at htwo
      split at htwo
      · split at htwo
        · split at htwo <;> cases htwo
          exact fun hmem => h (by simp [hmem])
        · cases htwo
      · cases htwo
    rw [Option.bind_eq_bind, Option.bind_some]
    dsimp only
    rw [skip?_eq_none hrest]
    rfl

theorem isDate_eq_false (h : '-' ∉ cs.tail) : isDate cs = false := by
  rw [isDate, afterDate?_eq_none h]
  rfl

/-- A word without a colon, and without a dash behind its first character, is no date and no time. -/
theorem isMoment_eq_false (hdash : '-' ∉ cs.tail) (hcolon : ':' ∉ cs) : isMoment cs = false := by
  rw [isMoment, isDate_eq_false hdash, afterTime?_eq_none hcolon, afterDate?_eq_none hdash]
  rfl

end Moment

namespace Scalar

variable {cs ds word rest : List Char} {v : Value}

/-! ## Words -/

theorem not_isWordChar_of_stops (h : Stops rest) : ∀ c ∈ rest.head?, ¬ isWordChar c := by
  intro c hc
  rcases h c hc with rfl | rfl | rfl <;> decide

/-- What a word stands for is read, and what follows it is left. -/
theorem read?_word (hword : ∀ c ∈ word, isWordChar c) (hdate : Moment.isDate word = false)
    (hv : ofWord? word = some v) (hrest : Stops rest) :
    Scalar.read? (word ++ rest) = some (v, rest) := by
  have hend := not_isWordChar_of_stops hrest
  rw [Scalar.read?]
  simp only [Text.takeWhile_append_of_head hword hend, Text.dropWhile_append_of_head hword hend,
    hdate, hv]
  rfl

/-! ## Digits -/

theorem ungrouped?_cons {isDigit : Char → Bool} {c d : Char} (hc : isDigit c) (hd : d ≠ '_') :
    ungrouped? isDigit (c :: d :: cs) = (ungrouped? isDigit (d :: cs)).map (c :: ·) := by
  rw [ungrouped?.eq_def]
  dsimp only
  rw [if_pos hc]
  split
  · rename_i heq
    cases heq
  · rename_i heq
    cases heq
    exact absurd rfl hd
  · rfl

theorem ungrouped?_digits (h : ∀ c ∈ ds, c.isDigit) (hne : ds ≠ []) :
    ungrouped? Decimal.isDigit ds = some ds := by
  induction ds with
  | nil => exact absurd rfl hne
  | cons d ds ih =>
    obtain ⟨hd, hds⟩ := List.forall_mem_cons.1 h
    rw [← Decimal.isDigit_eq] at hd
    cases ds with
    | nil => exact if_pos hd
    | cons e es =>
      have he : e ≠ '_' := by
        rintro rfl
        exact absurd (hds '_' List.mem_cons_self) (by decide)
      rw [ungrouped?_cons hd he, ih hds (List.cons_ne_nil _ _)]
      rfl

/-- Groups of digits have no other characters than digits and underscores. -/
theorem ungrouped?_eq_none {isDigit : Char → Bool} {c : Char} (hmem : c ∈ cs)
    (hdigit : isDigit c = false) (hunderscore : c ≠ '_') : ungrouped? isDigit cs = none := by
  have hne : ∀ d, isDigit d → c ≠ d := by
    rintro d hd rfl
    rw [hdigit] at hd
    cases hd
  fun_induction ungrouped? isDigit cs with
  | case1 => rfl
  | case2 d hd => exact absurd (List.mem_singleton.1 hmem) (hne d hd)
  | case3 d hd rest ih =>
    have hrest := (List.mem_cons.1 ((List.mem_cons.1 hmem).resolve_left (hne d hd))).resolve_left
      hunderscore
    rw [ih hrest]
    rfl
  | case4 d hd rest _ _ ih =>
    rw [ih ((List.mem_cons.1 hmem).resolve_left (hne d hd))]
    rfl
  | case5 => rfl

theorem wholeDigits?_digits (h : ∀ c ∈ ds, c.isDigit) (hne : ds ≠ [])
    (hlead : ds.head? ≠ some '0' ∨ ds.length = 1) : wholeDigits? ds = some ds := by
  rw [wholeDigits?, ungrouped?_digits h hne]
  exact Option.filter_eq_some_iff.2 ⟨rfl, decide_eq_true hlead⟩

theorem wholeDigits?_eq_none {c : Char} (hmem : c ∈ cs) (hdigit : c.isDigit = false)
    (hunderscore : c ≠ '_') : wholeDigits? cs = none := by
  rw [wholeDigits?, ungrouped?_eq_none hmem ((Decimal.isDigit_eq c).trans hdigit) hunderscore]
  rfl

/-! ## Words for numbers -/

/-- A character of numbers: a digit, a sign in front or a point. -/
def isNumberChar (c : Char) : Bool := c.isDigit || c = '-' || c = '.'

theorem isNumberChar_of_isDigit {c : Char} (h : c.isDigit) : isNumberChar c := by
  rw [isNumberChar, h]
  rfl

/-- What is written for a number: its characters, a sign only in front. -/
structure IsNumber (word : List Char) : Prop where
  chars : ∀ c ∈ word, isNumberChar c
  sign : '-' ∉ word.tail

namespace IsNumber

variable (h : IsNumber word)
include h

theorem notMem {c : Char} (hc : isNumberChar c = false) : c ∉ word := by
  intro hmem
  rw [h.chars c hmem] at hc
  cases hc

theorem isWordChar : ∀ c ∈ word, isWordChar c := by
  intro c hc
  have hnumber := h.chars c hc
  rw [isNumberChar, Bool.or_eq_true, Bool.or_eq_true, decide_eq_true_iff, decide_eq_true_iff] at hnumber
  rcases hnumber with (hdigit | rfl) | rfl
  · rw [Scalar.isWordChar, Char.isAlphanum, hdigit, Bool.or_true]
    rfl
  · decide
  · decide

theorem isDate_eq_false : Moment.isDate word = false := Moment.isDate_eq_false h.sign

/-- What is written for a number is no truth value and no moment. -/
theorem ofWord?_eq : ofWord? word = match integer? word with
    | some n => some (.integer n)
    | none => (real? word).map .real := by
  have htrue : word ≠ "true".toList := by
    rintro rfl
    exact h.notMem (c := 't') (by decide) (by decide)
  have hfalse : word ≠ "false".toList := by
    rintro rfl
    exact h.notMem (c := 'f') (by decide) (by decide)
  rw [ofWord?, if_neg htrue, if_neg hfalse,
    Moment.isMoment_eq_false h.sign (h.notMem (by decide))]
  exact if_neg Bool.false_ne_true

/-- What is written for a number is in base ten. -/
theorem integer?_eq : integer? word = match wholeDigits? (unsigned word).2 with
    | some digits => bounded? (if (unsigned word).1 then -(Decimal.valueOf digits : Int)
        else Decimal.valueOf digits)
    | none => none := by
  unfold integer?
  split
  · exact absurd (by simp) (h.notMem (c := 'x') (by decide))
  · exact absurd (by simp) (h.notMem (c := 'o') (by decide))
  · exact absurd (by simp) (h.notMem (c := 'b') (by decide))
  · rfl

end IsNumber

theorem unsigned_of_isDigit {c : Char} (h : c.isDigit) : unsigned (c :: cs) = (false, c :: cs) := by
  unfold unsigned
  split
  · rename_i heq
    cases heq
    cases h
  · rename_i heq
    cases heq
    cases h
  · rfl

/-! ## Natural numbers -/

theorem isNumber_toString (n : Nat) : IsNumber (toString n).toList where
  chars c hc := isNumberChar_of_isDigit (Decimal.isDigit_of_mem_toString hc)
  sign hmem := absurd (Decimal.isDigit_of_mem_toString (List.mem_of_mem_tail hmem)) (by decide)

theorem bounded?_natural {n : Nat} (hn : n ≤ maxInteger) : bounded? (n : Int) = some (n : Int) := by
  unfold maxInteger at hn
  exact if_pos ⟨by omega, by omega⟩

theorem lead_toDigits (n : Nat) :
    (Nat.toDigits 10 n).head? ≠ some '0' ∨ (Nat.toDigits 10 n).length = 1 := by
  rcases Nat.eq_zero_or_pos n with rfl | hpos
  · exact Or.inr rfl
  · exact Or.inl (Decimal.head?_toDigits_ne hpos)

theorem integer?_toString {n : Nat} (hn : n ≤ maxInteger) :
    integer? (toString n).toList = some (n : Int) := by
  have hdigits : ∀ c ∈ Nat.toDigits 10 n, c.isDigit := fun c =>
    Nat.isDigit_of_mem_toDigits (by decide) (by decide)
  obtain ⟨c, cs, hcs⟩ := List.exists_cons_of_ne_nil (Nat.toDigits_ne_nil (n := n) (b := 10))
  have hunsigned : unsigned (Nat.toDigits 10 n) = (false, Nat.toDigits 10 n) := by
    rw [hcs]
    exact unsigned_of_isDigit (hdigits c (hcs ▸ List.mem_cons_self))
  rw [(isNumber_toString n).integer?_eq, Decimal.toList_toString, hunsigned]
  dsimp only
  rw [wholeDigits?_digits hdigits Nat.toDigits_ne_nil (lead_toDigits n)]
  dsimp only
  rw [if_neg Bool.false_ne_true, Decimal.valueOf_eq hdigits, Nat.ofDigitChars_ten_toDigits]
  exact bounded?_natural hn

/-- **The digits of a number are read as it.** -/
theorem read?_natural {n : Nat} (hn : n ≤ maxInteger) (hrest : Stops rest) :
    Scalar.read? ((toString n).toList ++ rest) = some (.integer n, rest) := by
  have hnumber := isNumber_toString n
  refine read?_word hnumber.isWordChar hnumber.isDate_eq_false ?_ hrest
  rw [hnumber.ofWord?_eq, integer?_toString hn]

/-! ## Real numbers -/

section
variable (p : Decimal.Pointed) (negative : Bool)

theorem isNumberChar_of_mem_text {c : Char} (h : c ∈ p.text) : c.isDigit ∨ c = '.' := by
  rcases List.mem_append.1 h with hwhole | hrest
  · exact Or.inl (p.whole_digits c hwhole)
  · rcases List.mem_cons.1 hrest with rfl | hfraction
    · exact Or.inr rfl
    · exact Or.inl (p.fraction_digits c hfraction)

theorem isNumber_text : IsNumber (Decimal.Pointed.sign negative ++ p.text) where
  chars c hc := by
    rcases List.mem_append.1 hc with hsign | htext
    · cases negative with
      | true =>
        rw [List.mem_singleton.1 hsign]
        rfl
      | false => cases hsign
    · rcases isNumberChar_of_mem_text p htext with hdigit | rfl
      · exact isNumberChar_of_isDigit hdigit
      · rfl
  sign hmem := by
    have htext : '-' ∈ p.text := by
      cases negative with
      | true => exact hmem
      | false => exact List.mem_of_mem_tail hmem
    rcases isNumberChar_of_mem_text p htext with hdigit | hpoint
    · cases hdigit
    · cases hpoint

theorem unsigned_text : unsigned (Decimal.Pointed.sign negative ++ p.text) = (negative, p.text) := by
  cases negative with
  | true => rfl
  | false =>
    obtain ⟨c, cs, htext, hc⟩ := p.exists_text_eq
    rw [Decimal.Pointed.sign, if_neg Bool.false_ne_true, List.nil_append, htext]
    exact unsigned_of_isDigit hc

/-- A number with a point is no integer. -/
theorem integer?_text : integer? (Decimal.Pointed.sign negative ++ p.text) = none := by
  rw [(isNumber_text p negative).integer?_eq, unsigned_text]
  dsimp only
  rw [wholeDigits?_eq_none p.point_mem_text (by decide) (by decide)]

theorem isReal_text : isReal (Decimal.Pointed.sign negative ++ p.text) = true := by
  have hpart : ∀ c : Char, c.isDigit → (Decimal.isDigit c || c = '_') = true := by
    intro c hc
    rw [Decimal.isDigit_eq, hc]
    rfl
  have hpoint : ∀ c ∈ ('.' :: p.fraction).head?, ¬ (Decimal.isDigit c || c = '_') = true := by
    rintro c ⟨⟩
    decide
  have hfraction : p.fraction.takeWhile (fun c => Decimal.isDigit c || c = '_') = p.fraction :=
    List.takeWhile_eq_self_iff.2 fun c hc => hpart c (p.fraction_digits c hc)
  have hnothing : p.fraction.dropWhile (fun c => Decimal.isDigit c || c = '_') = [] :=
    List.dropWhile_eq_nil_iff.2 fun c hc => hpart c (p.fraction_digits c hc)
  rw [isReal, unsigned_text, Decimal.Pointed.text]
  dsimp only
  rw [Text.takeWhile_append_of_head (fun c hc => hpart c (p.whole_digits c hc)) hpoint,
    Text.dropWhile_append_of_head (fun c hc => hpart c (p.whole_digits c hc)) hpoint,
    wholeDigits?_digits p.whole_digits p.whole_ne_nil p.lead, isFractional]
  dsimp only
  rw [hfraction, hnothing, ungrouped?_digits p.fraction_digits p.fraction_ne_nil]
  rfl

theorem real?_text {x : Float} (hinf : x.isInf = false)
    (hx : Decimal.ofScientific negative p.mantissa p.exponent = x) :
    real? (Decimal.Pointed.sign negative ++ p.text) = some x := by
  have hword : ∀ word : String, '.' ∉ word.toList → p.text ≠ word.toList := fun word hword heq =>
    hword (heq ▸ p.point_mem_text)
  have hkept : (Decimal.Pointed.sign negative ++ p.text).filter (· ≠ '_') =
      Decimal.Pointed.sign negative ++ p.text := by
    refine List.filter_eq_self.2 fun c hc => decide_eq_true ?_
    rintro rfl
    exact (isNumber_text p negative).notMem (by decide) hc
  rw [real?, unsigned_text]
  dsimp only
  rw [if_neg (hword "inf" (by decide)), if_neg (hword "nan" (by decide)),
    if_pos (isReal_text p negative), hkept, p.double?_text, hx]
  exact Option.filter_eq_some_iff.2 ⟨rfl, by rw [hinf, Bool.not_false, Bool.or_true]⟩

end

end Scalar

namespace Literal

variable {x : Float}

/-- A double is the one with its magnitude and sign. -/
theorem signed_magnitude (x : Float) :
    Decimal.signed (decide (2 ^ 63 ≤ x.toBits.toNat)) (x.toBits.toNat % 2 ^ 63) = x := by
  have hlt := x.toBits.toNat_lt
  have hbits : x.toBits.toNat % 2 ^ 63 +
      (if decide (2 ^ 63 ≤ x.toBits.toNat) = true then 2 ^ 63 else 0) = x.toBits.toNat := by
    simp only [decide_eq_true_iff]
    split <;> omega
  rw [Decimal.signed, hbits, UInt64.ofNat_toNat, Double.ofBits_toBits]

theorem toList_sign (x : Float) : (if x.toBits.toNat < 2 ^ 63 then "" else "-").toList =
    Decimal.Pointed.sign (decide (2 ^ 63 ≤ x.toBits.toNat)) := by
  by_cases h : x.toBits.toNat < 2 ^ 63
  · rw [if_pos h, decide_eq_false (not_le.2 h)]
    rfl
  · rw [if_neg h, decide_eq_true (not_lt.1 h)]
    rfl

theorem magnitude_lt (hnan : x.isNaN = false) (hinf : x.isInf = false) :
    x.toBits.toNat % 2 ^ 63 < Decimal.infinityBits := by
  by_contra h
  rcases Nat.lt_or_eq_of_le (Nat.le_of_not_lt h) with hlt | heq
  · rw [Double.isNaN_of_lt hlt] at hnan
    cases hnan
  · rw [Double.isInf_iff.2 heq.symm] at hinf
    cases hinf

/-- The digits of a finite number, without a fraction where it has none. -/
theorem toList_plain (hnan : x.isNaN = false) (hinf : x.isInf = false) :
    (Decimal.plain x).toList = Decimal.Pointed.sign (decide (2 ^ 63 ≤ x.toBits.toNat)) ++
      if x.toBits.toNat % 2 ^ 63 = 0 then ['0']
      else
        let found := Decimal.shortest (.ofBits (x.toBits.toNat % 2 ^ 63))
        (Decimal.positional found.1 found.2).toList := by
  have hfinite : x.toBits.toNat % 2 ^ 63 ≠ 0x7FF * 2 ^ 52 := (magnitude_lt hnan hinf).ne
  rw [Decimal.plain, if_neg (Bool.eq_false_iff.1 hnan), if_neg hfinite]
  split <;> rw [String.toList_append, toList_sign]
  rfl

/-- What is written for a finite number: its digits, and a fraction where there is none. -/
theorem writeReal_eq {cs body : List Char} (hnan : x.isNaN = false) (hinf : x.isInf = false)
    {negative : Bool} (hplain : (Decimal.plain x).toList = Decimal.Pointed.sign negative ++ cs)
    (hbody : cs = body ∧ '.' ∈ cs ∨ '.' ∉ cs ∧ cs ++ ".0".toList = body) :
    writeReal x = Decimal.Pointed.sign negative ++ body := by
  have hsign : '.' ∉ Decimal.Pointed.sign negative := by cases negative <;> decide
  rw [writeReal, if_neg (Bool.eq_false_iff.1 hnan), hinf, Bool.false_or, hplain,
    List.contains_eq_mem]
  rcases hbody with ⟨rfl, hpoint⟩ | ⟨hpoint, rfl⟩
  · rw [if_pos (decide_eq_true (List.mem_append_right _ hpoint))]
  · rw [if_neg (by simp [hsign, hpoint]), List.append_assoc]

/-- **The text of a finite number** has a point, and its digits are read as the number. -/
theorem exists_pointed_writeReal (hnan : x.isNaN = false) (hinf : x.isInf = false) :
    ∃ (p : Decimal.Pointed) (negative : Bool),
      writeReal x = Decimal.Pointed.sign negative ++ p.text ∧
        Decimal.ofScientific negative p.mantissa p.exponent = x := by
  have hsigned := signed_magnitude x
  have hplain := toList_plain hnan hinf
  by_cases hzero : x.toBits.toNat % 2 ^ 63 = 0
  · rw [if_pos hzero] at hplain
    rw [hzero] at hsigned
    exact ⟨Decimal.zeroPointed, _, writeReal_eq hnan hinf hplain (Or.inr ⟨by decide, rfl⟩), hsigned⟩
  · have hpos := Nat.pos_of_ne_zero hzero
    have hrounds := Decimal.roundsTo_shortest hpos
    rw [if_neg hzero] at hplain
    generalize Decimal.shortest (.ofBits (x.toBits.toNat % 2 ^ 63)) = found at hplain hrounds
    have hdigits : 0 < found.1 := by
      refine Nat.pos_of_ne_zero fun hnone => ?_
      have hmore := hrounds.pow_lt hpos
      rw [hnone, Nat.cast_zero, zero_mul] at hmore
      exact absurd hmore (not_lt.2 (by positivity))
    obtain ⟨p, htext, hvalue⟩ := Decimal.exists_pointed_positional hdigits found.2
    rw [← hvalue] at hrounds
    refine ⟨p, _, writeReal_eq hnan hinf hplain ?_, ?_⟩
    · rcases htext with heq | hpoint
      · exact Or.inl ⟨heq, heq ▸ p.point_mem_text⟩
      · exact Or.inr hpoint
    · rw [hrounds.ofScientific_eq hpos (magnitude_lt hnan hinf), hsigned]

theorem infinite_eq (hinf : x.isInf = true) :
    Decimal.infinite (decide (2 ^ 63 ≤ x.toBits.toNat)) = x := by
  have hsigned := signed_magnitude x
  rw [Double.isInf_iff.1 hinf] at hsigned
  exact hsigned

theorem writeReal_of_isInf (hinf : x.isInf = true) : writeReal x =
    Decimal.Pointed.sign (decide (2 ^ 63 ≤ x.toBits.toNat)) ++ "inf".toList := by
  have hnan := Bool.eq_false_iff.1 (Double.isNaN_of_isInf hinf)
  have hmagnitude : x.toBits.toNat % 2 ^ 63 = 0x7FF * 2 ^ 52 := Double.isInf_iff.1 hinf
  rw [writeReal, if_neg hnan, if_pos (by rw [hinf, Bool.true_or]), Decimal.plain, if_neg hnan,
    if_pos hmagnitude, String.toList_append, toList_sign]

/-- **What is written for a real number is read as it.** -/
theorem read?_writeReal (x : Float) {rest : List Char} (hrest : Stops rest) :
    Scalar.read? (writeReal x ++ rest) = some (.real x, rest) := by
  by_cases hnan : x.isNaN
  · have hword : writeReal x = "nan".toList := by rw [writeReal, if_pos hnan]
    have hchars : "nan".toList.all Scalar.isWordChar := rfl
    rw [hword]
    refine Scalar.read?_word (List.all_eq_true.1 hchars) (by decide) ?_ hrest
    rw [Double.eq_notANumber hnan]
    rfl
  · rw [Bool.not_eq_true] at hnan
    by_cases hinf : x.isInf
    · rw [writeReal_of_isInf hinf]
      have hx := infinite_eq hinf
      generalize decide (2 ^ 63 ≤ x.toBits.toNat) = negative at hx ⊢
      subst hx
      have hchars : (Decimal.Pointed.sign negative ++ "inf".toList).all Scalar.isWordChar := by
        cases negative <;> rfl
      have hdate : Moment.isDate (Decimal.Pointed.sign negative ++ "inf".toList) = false := by
        cases negative <;> rfl
      refine Scalar.read?_word (List.all_eq_true.1 hchars) hdate ?_ hrest
      cases negative <;> rfl
    · rw [Bool.not_eq_true] at hinf
      obtain ⟨p, negative, htext, hx⟩ := exists_pointed_writeReal hnan hinf
      have hnumber := Scalar.isNumber_text p negative
      rw [htext]
      refine Scalar.read?_word hnumber.isWordChar hnumber.isDate_eq_false ?_ hrest
      rw [hnumber.ofWord?_eq, Scalar.integer?_text, Scalar.real?_text p negative hinf hx]
      rfl

end Literal

end Toml

end Apportion
