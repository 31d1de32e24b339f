/-
  The order of numbers in double precision, and how whole numbers and their quotients stand in it.

  * `rank`, `le_iff`, `le_trans`: numbers are ordered as in a dictionary, hence transitively.
  * `Full.le_iff_place`: numbers in full precision are ordered by their places.
  * `exists_full_toFloat`, `placeOf_le_placeOf`: larger whole numbers stand at no lower places.
  * `exists_full_div`, `placeOfDiv_le_placeOfDiv`: nor do their quotients.
  * `toFloat_div_le_toFloat_div`: a share grows with the whole number it is of.
-/
import Apportion.Proofs.Double.Rounding

namespace Apportion

namespace Double

open Float.Model Float.Model.UnpackedFloat

/-! ## The order -/

/-- Where a number stands: first by its sign, zeros, infinities and all others apart, then by its
    exponent, then by its mantissa. What is not a number stands nowhere. -/
def rank : UnpackedFloat → Option (Int × Int × Int)
  | .infinity s => some (s.apply 2, 0, 0)
  | .notANumber => none
  | .zero _ => some (0, 0, 0)
  | .finite s m e _ => some (s.apply 1, s.apply e, s.apply m)

/-- The order of a dictionary. -/
def Precedes (a b : Int × Int × Int) : Prop :=
  a.1 < b.1 ∨ a.1 = b.1 ∧ (a.2.1 < b.2.1 ∨ a.2.1 = b.2.1 ∧ a.2.2 ≤ b.2.2)

theorem Precedes.trans {a b c : Int × Int × Int} (h : Precedes a b) (h' : Precedes b c) :
    Precedes a c := by
  simp only [Precedes] at *
  omega

theorem isLE_compare_then {e e' : Int} {m m' : Nat} :
    ((compare e e').then (compare m m')).isLE = true ↔ e < e' ∨ e = e' ∧ m ≤ m' := by
  rw [Ordering.isLE_then_iff_or, Int.compare_eq_lt, Int.compare_eq_eq, Nat.isLE_compare]

theorem isGE_compare_then {e e' : Int} {m m' : Nat} :
    ((compare e e').then (compare m m')).isGE = true ↔ e' < e ∨ e = e' ∧ m' ≤ m := by
  rw [← Ordering.isLE_swap, Ordering.swap_then, Int.compare_swap, Nat.compare_swap,
    isLE_compare_then, eq_comm (a := e)]

theorem isLE_compare_sign {s s' : Sign} :
    (compare s s').isLE = true ↔ s.apply 2 ≤ s'.apply 2 := by
  cases s <;> cases s' <;> decide

/-- **The order of numbers** is that of where they stand. -/
theorem le_iff {a b : UnpackedFloat} :
    a.le b = true ↔ ∃ p q, rank a = some p ∧ rank b = some q ∧ Precedes p q := by
  rcases a with ⟨_ | _⟩ | _ | ⟨_ | _⟩ | ⟨_ | _, m, e, h⟩ <;>
    rcases b with ⟨_ | _⟩ | _ | ⟨_ | _⟩ | ⟨_ | _, m', e', h'⟩ <;>
    dsimp only [UnpackedFloat.le, UnpackedFloat.compare, rank] <;>
    simp [Precedes, Sign.apply, isLE_compare_sign, isLE_compare_then, isGE_compare_then]

theorem le_iff_le_unpack {x y : Float} : x ≤ y ↔ x.toModel.unpack.le y.toModel.unpack = true := by
  change x.le y = true ↔ _
  rw [Float.le, decide_eq_true_iff]
  rfl

theorem le_trans {x y z : Float} (h : x ≤ y) (h' : y ≤ z) : x ≤ z := by
  rw [le_iff_le_unpack, le_iff] at *
  obtain ⟨p, q, hp, hq, hpq⟩ := h
  obtain ⟨q', r, hq', hr, hqr⟩ := h'
  obtain rfl := Option.some.inj (hq.symm.trans hq')
  exact ⟨p, r, hp, hr, hpq.trans hqr⟩

/-- Numbers in full precision are ordered by their places. -/
theorem Full.le_iff_place {u v : UnpackedFloat} {m m' : Nat} {e e' : Int} (h : Full u m e)
    (h' : Full v m' e') : u.le v = true ↔ place m e ≤ place m' e' := by
  obtain ⟨hleast, hbelow, hpos, rfl⟩ := h
  obtain ⟨hleast', hbelow', hpos', rfl⟩ := h'
  have hcompare : (UnpackedFloat.le (.finite .positive m e hpos) (.finite .positive m' e' hpos')) =
      ((compare e e').then (compare m m')).isLE := rfl
  rw [hcompare, isLE_compare_then, place, place]
  omega

theorem place_le_place {m m' : Nat} {e e' : Int} (hm : m ≤ 2 ^ 53) (hm' : 2 ^ 52 ≤ m')
    (he : e < e') : place m e ≤ place m' e' := by
  simp only [place]
  omega

/-! ## Whole numbers -/

theorem log2_shiftLeft {n : Nat} (h : n ≠ 0) (k : Nat) : (n <<< k).log2 = n.log2 + k := by
  obtain ⟨hlow, hhigh⟩ := (Nat.log2_eq_iff h).1 rfl
  rw [Nat.shiftLeft_eq]
  refine (Nat.log2_eq_iff (Nat.mul_ne_zero h (Nat.two_pow_pos k).ne')).2 ⟨?_, ?_⟩
  · rw [Nat.pow_add]
    exact Nat.mul_le_mul_right _ hlow
  · rw [Nat.add_right_comm, Nat.pow_add]
    exact Nat.mul_lt_mul_of_pos_right hhigh (Nat.two_pow_pos k)

/-- Rounding a positive whole number starts from a mantissa of at least 53 bits. -/
theorem ofUInt64_eq {n : UInt64} (h : n ≠ 0) : UnpackedFloat.ofUInt64 Format.binary64 n =
    let num := n.toNat <<< (52 - n.toNat.log2)
    roundWithAccuracy Format.binary64 .positive (num / 1) (-(52 - n.toNat.log2 : Nat))
      (accuracyOfFraction (num % 1) 1) := by
  have hpos : n.toNat ≠ 0 := fun e => h (UInt64.toNat_inj.1 e)
  have hshift : (0 - Format.binary64.targetExponent (totalExponent n.toNat 0)).toNat =
      52 - n.toNat.log2 := by
    rw [targetExponent_eq, totalExponent]
    omega
  have hexact : ∀ num, accuracyOfFraction (num % 1) 1 = .exact := fun num => by
    rw [Nat.mod_one]
    rfl
  unfold UnpackedFloat.ofUInt64 UnpackedFloat.ofNat UnpackedFloat.ofInt UnpackedFloat.normalize
  rw [Int.compare_eq_gt.2 (by omega)]
  dsimp only
  rw [Int.toNat_natCast, UnpackedFloat.round, decreaseExponent, hshift]
  dsimp only
  rw [hexact, Nat.div_one, Int.zero_sub]

/-- The place of a positive whole number. -/
def placeOf (n : Nat) : Int :=
  place (Decimal.roundDiv (n <<< (52 - n.log2)) (1 * 2 ^ (n.log2 - 52))) (n.log2 - 52)

theorem log2_shiftLeft_full {n : Nat} (h : n ≠ 0) :
    (n <<< (52 - n.log2) / 1).log2 = (n.log2 - 52) + 52 := by
  rw [Nat.div_one, log2_shiftLeft h]
  omega

/-- Larger whole numbers do not stand at lower places. -/
theorem placeOf_le_placeOf {n n' : Nat} (h : n ≠ 0) (hle : n ≤ n') : placeOf n ≤ placeOf n' := by
  have h' : n' ≠ 0 := by omega
  have hlog : n.log2 ≤ n'.log2 := (Nat.le_log2 h').2 (((Nat.log2_eq_iff h).1 rfl).1.trans hle)
  rcases Nat.lt_or_eq_of_le hlog with hlt | heq
  · exact place_le_place (roundDiv_bounds (log2_shiftLeft_full h)).2
      (roundDiv_bounds (log2_shiftLeft_full h')).1 (by omega)
  · have hshift : n <<< (52 - n.log2) ≤ n' <<< (52 - n.log2) := by
      rw [Nat.shiftLeft_eq, Nat.shiftLeft_eq]
      exact Nat.mul_le_mul_right _ hle
    rw [placeOf, placeOf, ← heq]
    exact Int.add_le_add_left (Int.ofNat_le.2 (Decimal.roundDiv_le_roundDiv hshift)) _

/-- A positive whole number in double precision. -/
theorem exists_full_toFloat {n : UInt64} (h : n ≠ 0) :
    ∃ m e, Full n.toFloat.toModel.unpack m e ∧ -52 ≤ e ∧ e ≤ 12 ∧ place m e = placeOf n.toNat := by
  have hpos : n.toNat ≠ 0 := fun e => h (UInt64.toNat_inj.1 e)
  have hlog : n.toNat.log2 < 64 := (Nat.log2_lt hpos).2 n.toNat_lt
  obtain ⟨m, e, hfull, hplace, hlow, hhigh⟩ := exists_full_of_quotient Nat.one_pos
    (log2_shiftLeft_full hpos) (e := -(52 - n.toNat.log2 : Nat)) (by omega)
  have hexponent : -((52 - n.toNat.log2 : Nat) : Int) + (n.toNat.log2 - 52 : Nat) =
      n.toNat.log2 - 52 := by omega
  rw [hexponent] at hplace hlow hhigh
  refine ⟨m, e, ?_, by omega, by omega, hplace⟩
  rw [← ofUInt64_eq h] at hfull
  have hsame : n.toFloat.toModel.unpack = UnpackedFloat.ofUInt64 Format.binary64 n :=
    hfull.unpack_pack (by omega) (by omega)
  rwa [hsame]

theorem zero_toFloat : (0 : UInt64).toFloat.toModel.unpack = .zero .positive := rfl

/-! ## Quotients -/

section
variable {m m' n : Nat} {e e' f : Int}

/-- The bits of a quotient of mantissas beyond 53: none, or one. -/
def bitsOf (m n : Nat) : Nat := if n ≤ m then 1 else 0

theorem bitsOf_le_one : bitsOf m n ≤ 1 := by
  simp only [bitsOf]
  split_ifs <;> omega

/-- The place of a quotient. -/
def placeOfDiv (m : Nat) (e : Int) (n : Nat) (f : Int) : Int :=
  place (Decimal.roundDiv (m <<< 53) (n * 2 ^ bitsOf m n)) (e - f - 53 + bitsOf m n)

theorem log2_shiftLeft_div (hm : 2 ^ 52 ≤ m) (hm' : m < 2 ^ 53) (hn : 2 ^ 52 ≤ n)
    (hn' : n < 2 ^ 53) : (m <<< 53 / n).log2 = bitsOf m n + 52 := by
  have hpos : 0 < n := by omega
  have hleast : 2 ^ (bitsOf m n + 52) ≤ m <<< 53 / n := by
    rw [Nat.le_div_iff_mul_le hpos, Nat.shiftLeft_eq, bitsOf]
    split_ifs <;> omega
  have hbelow : m <<< 53 / n < 2 ^ (bitsOf m n + 52 + 1) := by
    rw [Nat.div_lt_iff_lt_mul hpos, Nat.shiftLeft_eq, bitsOf]
    split_ifs <;> omega
  exact (Nat.log2_eq_iff (by have := Nat.two_pow_pos (bitsOf m n + 52); omega)).2 ⟨hleast, hbelow⟩

/-- What stands at a higher place does not have its quotients at lower ones. -/
theorem placeOfDiv_le_placeOfDiv (hm : 2 ^ 52 ≤ m) (hmb : m < 2 ^ 53) (hm' : 2 ^ 52 ≤ m')
    (hmb' : m' < 2 ^ 53) (hn : 2 ^ 52 ≤ n) (hnb : n < 2 ^ 53) (h : place m e ≤ place m' e') :
    placeOfDiv m e n f ≤ placeOfDiv m' e' n f := by
  have hcases : e < e' ∨ e = e' ∧ m ≤ m' := by
    simp only [place] at h
    omega
  have hbits : bitsOf m n ≤ 1 := bitsOf_le_one
  have hbits' : bitsOf m' n ≤ 1 := bitsOf_le_one
  rcases Int.lt_trichotomy (e + bitsOf m n) (e' + bitsOf m' n) with hlt | heq | hgt
  · exact place_le_place (roundDiv_bounds (log2_shiftLeft_div hm hmb hn hnb)).2
      (roundDiv_bounds (log2_shiftLeft_div hm' hmb' hn hnb)).1 (by omega)
  · have hexponent : e - f - 53 + bitsOf m n = e' - f - 53 + bitsOf m' n := by omega
    have hround : Decimal.roundDiv (m <<< 53) (n * 2 ^ bitsOf m n) ≤
        Decimal.roundDiv (m' <<< 53) (n * 2 ^ bitsOf m' n) := by
      rw [Nat.shiftLeft_eq, Nat.shiftLeft_eq]
      rcases hcases with hlt | ⟨rfl, hle⟩
      · -- the quotient that has a bit less is divided by half as much
        have hone : bitsOf m n = 1 := by omega
        have hzero : bitsOf m' n = 0 := by omega
        rw [hone, hzero, Nat.pow_one, Nat.pow_zero, Nat.mul_one, Nat.mul_comm n]
        exact Decimal.roundDiv_two_mul_le (by omega)
      · have hsame : bitsOf m n = bitsOf m' n := by omega
        rw [hsame]
        exact Decimal.roundDiv_le_roundDiv (Nat.mul_le_mul_right _ hle)
    rw [placeOfDiv, placeOfDiv, hexponent]
    exact Int.add_le_add_left (Int.ofNat_le.2 hround) _
  · simp only [bitsOf] at hgt
    split_ifs at hgt <;> omega

/-- The quotient of two mantissas in full precision is taken with 53 bits more. -/
theorem divCore_eq (hm : m.log2 = 52) (hn : n.log2 = 52) (he : -900 ≤ e - f) :
    divCore Format.binary64 m e n f =
      (m <<< 53 / n, e - f - 53, accuracyOfFraction (m <<< 53 % n) n) := by
  have htarget : min (e - f)
      (Format.binary64.targetExponent (totalExponent m e - totalExponent n f)) = e - f - 53 := by
    rw [targetExponent_eq, totalExponent, totalExponent, hm, hn]
    omega
  have hshift : (e - f - (e - f - 53)).toNat = 53 := by omega
  rw [divCore, htarget, hshift]

/-- A quotient of numbers in full precision. -/
theorem exists_full_div {u v : UnpackedFloat} (h : Full u m e) (hv : Full v n f)
    (he : -900 ≤ e - f) :
    ∃ m' e', Full (UnpackedFloat.div Format.binary64 u v) m' e' ∧
      e - f - 53 ≤ e' ∧ e' ≤ e - f + 1 ∧ place m' e' = placeOfDiv m e n f := by
  obtain ⟨hm, hmb, hpos, rfl⟩ := h
  obtain ⟨hn, hnb, hposn, rfl⟩ := hv
  have hbits : bitsOf m n ≤ 1 := bitsOf_le_one
  have hdiv : UnpackedFloat.div Format.binary64 (.finite .positive m e hpos)
      (.finite .positive n f hposn) =
      roundWithAccuracy Format.binary64 .positive (m <<< 53 / n) (e - f - 53)
        (accuracyOfFraction (m <<< 53 % n) n) := by
    change (let (m', e', acc) := divCore Format.binary64 m e n f
      roundWithAccuracy Format.binary64 (Sign.positive / Sign.positive) m' e' acc) = _
    rw [divCore_eq (log2_eq_52 hm hmb) (log2_eq_52 hn hnb) he]
    rfl
  obtain ⟨m', e', hfull, hplace, hlow, hhigh⟩ := exists_full_of_quotient (by omega)
    (log2_shiftLeft_div hm hmb hn hnb) (e := e - f - 53) (by omega)
  rw [← hdiv] at hfull
  exact ⟨m', e', hfull, by omega, by omega, hplace⟩

end

/-! ## Shares -/

section
variable {a b total : UInt64} {n : Nat} {f : Int}

theorem unpack_div (x y : Float) : (x / y).toModel.unpack =
    (Float.Model.pack
      (UnpackedFloat.div Format.binary64 x.toModel.unpack y.toModel.unpack)).unpack :=
  rfl

theorem zero_toFloat_div (hfull : Full total.toFloat.toModel.unpack n f) :
    ((0 : UInt64).toFloat / total.toFloat).toModel.unpack = .zero .positive := by
  obtain ⟨-, -, hpos, htotal⟩ := hfull
  have hdiv : UnpackedFloat.div Format.binary64 (.zero .positive) (.finite .positive n f hpos) =
      .zero .positive := rfl
  rw [unpack_div, zero_toFloat, htotal, hdiv]
  rfl

/-- The share of a positive whole number. -/
theorem exists_full_toFloat_div (ha : a ≠ 0) (hfull : Full total.toFloat.toModel.unpack n f)
    (hlow : -52 ≤ f) (hhigh : f ≤ 12) :
    ∃ m e, Full a.toFloat.toModel.unpack m e ∧ place m e = placeOf a.toNat ∧
      ∃ m' e', Full (a.toFloat / total.toFloat).toModel.unpack m' e' ∧
        place m' e' = placeOfDiv m e n f := by
  obtain ⟨m, e, hafull, halow, hahigh, hplace⟩ := exists_full_toFloat ha
  obtain ⟨m', e', hdiv, hdlow, hdhigh, hdplace⟩ := exists_full_div hafull hfull (by omega)
  refine ⟨m, e, hafull, hplace, m', e', ?_, hdplace⟩
  rw [unpack_div, hdiv.unpack_pack (by omega) (by omega)]
  exact hdiv

/-- **A share grows with the whole number it is of**, in double precision as well. -/
theorem toFloat_div_le_toFloat_div (h : a ≤ b) (htotal : total ≠ 0) :
    a.toFloat / total.toFloat ≤ b.toFloat / total.toFloat := by
  obtain ⟨n, f, hfull, hlow, hhigh, -⟩ := exists_full_toFloat htotal
  rw [le_iff_le_unpack]
  by_cases hb : b = 0
  · obtain rfl : a = 0 := UInt64.le_antisymm (hb ▸ h) UInt64.zero_le
    rw [hb, zero_toFloat_div hfull]
    rfl
  obtain ⟨m', e', hbfull, hbplace, q', g', hbdiv, hbdivplace⟩ :=
    exists_full_toFloat_div hb hfull hlow hhigh
  by_cases ha : a = 0
  · obtain ⟨-, -, hpos, hdiv⟩ := hbdiv
    rw [ha, zero_toFloat_div hfull, hdiv]
    rfl
  obtain ⟨m, e, hafull, haplace, q, g, hadiv, hadivplace⟩ :=
    exists_full_toFloat_div ha hfull hlow hhigh
  have hanat : a.toNat ≠ 0 := fun hzero => ha (UInt64.toNat_inj.1 hzero)
  have hplace : place m e ≤ place m' e' := by
    rw [haplace, hbplace]
    exact placeOf_le_placeOf hanat (UInt64.le_iff_toNat_le.1 h)
  rw [hadiv.le_iff_place hbdiv, hadivplace, hbdivplace]
  exact placeOfDiv_le_placeOfDiv hafull.least hafull.below hbfull.least hbfull.below hfull.least
    hfull.below hplace

end

end Double

end Apportion
