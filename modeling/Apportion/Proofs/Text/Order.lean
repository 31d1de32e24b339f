/-
  The order of texts is that of their octets.

  * `encode_eq_flatMap`: a text is stored as its characters, one after the other.
  * `utf8EncodeChar_append_lt`: of two characters the smaller one is stored in smaller octets,
    whatever follows.
  * `encode_lt_encode_iff`: texts are in the order of their code points iff their octets are in order.
-/
import Apportion.Text.Utf8

namespace Apportion

namespace Utf8

theorem encode_eq_flatMap (s : String) : encode s = s.toList.flatMap String.utf8EncodeChar := by
  have hbytes : s.toByteArray = s.toList.utf8Encode := by
    rw [← String.toByteArray_ofList, String.ofList_toList]
  rw [encode, hbytes, List.utf8Encode, List.toList_data_toByteArray]

/-! ## Characters -/

theorem ofNat_cons_lt_iff {m n : Nat} (hm : m < 256) (hn : n < 256) {o o' : Octets} :
    UInt8.ofNat m :: o < UInt8.ofNat n :: o' ↔ m < n ∨ m = n ∧ o < o' := by
  rw [List.cons_lt_cons_iff, UInt8.lt_iff_toNat_lt, ← UInt8.toNat_inj,
    UInt8.toNat_ofNat_of_lt' hm, UInt8.toNat_ofNat_of_lt' hn]

/-- The first octets differ where the widths do; behind them there are digits to the base 64. -/
theorem utf8EncodeChar_append_lt {c d : Char} (h : c < d) (o o' : Octets) :
    String.utf8EncodeChar c ++ o < String.utf8EncodeChar d ++ o' := by
  have hlt : c.val.toNat < d.val.toNat := h
  have hlargest : d.val.toNat < 0x110000 := by
    rcases d.valid with h | h <;> omega
  have htwo (v : Nat) : v / 4096 = v / 64 / 64 := by omega
  have hthree (v : Nat) : v / 262144 = v / 64 / 64 / 64 := by omega
  unfold String.utf8EncodeChar
  dsimp only
  -- one case for each width of the one and of the other
  repeat' split
  all_goals
    simp (disch := omega) only [List.cons_append, List.nil_append, ofNat_cons_lt_iff, htwo, hthree]
    omega

/-! ## Texts -/

theorem flatMap_utf8EncodeChar_lt {cs ds : List Char} (h : cs < ds) :
    cs.flatMap String.utf8EncodeChar < ds.flatMap String.utf8EncodeChar := by
  induction h with
  | @nil d ds =>
    obtain ⟨b, o, hd⟩ := List.exists_cons_of_ne_nil (String.utf8EncodeChar_ne_nil (c := d))
    rw [List.flatMap_nil, List.flatMap_cons, hd, List.cons_append]
    exact List.nil_lt_cons ..
  | rel hcd => exact utf8EncodeChar_append_lt hcd _ _
  | cons _ ih => exact List.append_left_lt ih

/-- **Texts are in the order of their octets.** -/
theorem encode_lt_encode_iff {s t : String} : encode s < encode t ↔ s < t := by
  have hlt {s t : String} (h : s < t) : encode s < encode t := by
    rw [encode_eq_flatMap, encode_eq_flatMap]
    exact flatMap_utf8EncodeChar_lt (String.lt_iff.1 h)
  refine ⟨fun h => String.not_le.1 fun hle => ?_, hlt⟩
  by_cases heq : t = s
  · rw [heq] at h
    exact List.lt_irrefl _ h
  · have hts : t < s := String.not_le.1 fun hge => heq (String.le_antisymm hle hge)
    exact List.lt_asymm h (hlt hts)

end Utf8

end Apportion
