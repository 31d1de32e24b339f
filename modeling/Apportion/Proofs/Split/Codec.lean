/-
  The stored form of a split, read and written.

  * `stringOctets`, `listOctets`: how a string and a list of strings are stored.
  * `Storable`: lists that have a stored form.
  * `encode_eq_ok_iff`: a split is written iff both its lists are storable, as one after the other.
  * `decode_eq_ok_iff`: exactly the stored forms of storable lists are read.
  * `decode_of_encode`: a split is read back as written.
-/
import Apportion.Proofs.Octets
import Apportion.Proofs.Sequence
import Apportion.Proofs.Split.Hosts
import Apportion.Split.Codec

namespace Apportion

namespace Split

open Octets Sequence

/-! ## Stored forms -/

/-- A string with its length in front. -/
def stringOctets (s : String) : Octets := bigEndian 2 s.utf8ByteSize ++ Utf8.encode s

/-- A list of strings with its count in front. -/
def listOctets (strings : List String) : Octets :=
  bigEndian 4 strings.length ++ strings.flatMap stringOctets

/-- A list with a stored form: not too many strings, and none too long. -/
structure Storable (strings : List String) : Prop where
  count : strings.length ≤ maxCount
  lengths : ∀ s ∈ strings, s.utf8ByteSize ≤ maxLength

variable {kind : Section}

/-! ## Writing -/

theorem encodeString_eq_ok_iff {s : String} {o : Octets} :
    encodeString kind s = .ok o ↔ s.utf8ByteSize ≤ maxLength ∧ stringOctets s = o := by
  by_cases h : s.utf8ByteSize ≤ maxLength
  · simp only [encodeString, h, if_true, true_and, Except.ok.injEq]
    rfl
  · simp only [encodeString, h, if_false, false_and, reduceCtorEq]

theorem encodeList_eq_ok_iff {strings : List String} {o : Octets} :
    encodeList kind strings = .ok o ↔ Storable strings ∧ listOctets strings = o := by
  unfold encodeList
  split
  · rename_i hcount
    rw [bind_eq_ok_iff]
    simp only [mapM_eq_ok_iff, encodeString_eq_ok_iff]
    constructor
    · rintro ⟨items, hitems, ho⟩
      cases ho
      refine ⟨⟨hcount, fun s hs => ?_⟩, ?_⟩
      · obtain ⟨k, hk, rfl⟩ := List.getElem_of_mem hs
        exact (hitems.get hk (hitems.length_eq ▸ hk)).1
      · have heq : List.Forall₂ (· = ·) (strings.map stringOctets) items :=
          List.forall₂_map_left_iff.2 (hitems.imp fun _ _ h => h.2)
        rw [List.forall₂_eq_eq_eq] at heq
        rw [listOctets, List.flatMap, heq]
    · rintro ⟨hs, rfl⟩
      refine ⟨strings.map stringOctets, ?_, rfl⟩
      exact List.forall₂_map_right_iff.2 (List.forall₂_same.2 fun s h => ⟨hs.lengths s h, rfl⟩)
  · rename_i hcount
    constructor
    · intro h
      cases h
    · rintro ⟨hs, -⟩
      exact absurd hs.count hcount

theorem encode_eq_ok_iff {s : Split} {o : Octets} :
    s.encode = .ok o ↔
      Storable s.paths ∧ Storable s.hosts ∧ listOctets s.paths ++ listOctets s.hosts = o := by
  unfold encode
  simp only [bind_eq_ok_iff, encodeList_eq_ok_iff]
  constructor
  · rintro ⟨_, ⟨hpaths, rfl⟩, _, ⟨hhosts, rfl⟩, ho⟩
    cases ho
    exact ⟨hpaths, hhosts, rfl⟩
  · rintro ⟨hpaths, hhosts, rfl⟩
    exact ⟨_, ⟨hpaths, rfl⟩, _, ⟨hhosts, rfl⟩, rfl⟩

/-! ## Reading -/

theorem decodeString_eq_ok_iff {index : Nat} {o rest : Octets} {s : String} :
    decodeString kind index o = .ok (s, rest) ↔
      s.utf8ByteSize ≤ maxLength ∧ o = stringOctets s ++ rest := by
  constructor
  · intro h
    unfold decodeString at h
    split at h
    · cases h
    · rename_i field content hfield
      dsimp only at h
      split at h
      · cases h
      · rename_i text after htext
        split at h
        · cases h
        · rename_i t ht
          cases h
          obtain ⟨rfl, hlength⟩ := splitAt?_eq_some_iff.1 htext
          have ht := Utf8.decode_eq_ok_iff.1 ht
          subst ht
          rw [Utf8.length_encode] at hlength
          obtain ⟨rfl, hwidth⟩ := splitAt?_eq_some_iff.1 hfield
          have hlt := ofBigEndian_lt field
          rw [← hlength, hwidth] at hlt
          refine ⟨Nat.le_of_lt_succ hlt, ?_⟩
          rw [stringOctets, hlength, ← hwidth, bigEndian_ofBigEndian, List.append_assoc]
  · rintro ⟨hs, rfl⟩
    have hfield : splitAt? 2 (stringOctets s ++ rest) =
        some (bigEndian 2 s.utf8ByteSize, Utf8.encode s ++ rest) :=
      splitAt?_eq_some_iff.2 ⟨List.append_assoc _ _ _, length_bigEndian _ _⟩
    have htext : splitAt? s.utf8ByteSize (Utf8.encode s ++ rest) = some (Utf8.encode s, rest) :=
      splitAt?_eq_some_iff.2 ⟨rfl, Utf8.length_encode s⟩
    have hlt : s.utf8ByteSize < 256 ^ 2 := Nat.lt_succ_of_le hs
    simp only [decodeString, hfield, ofBigEndian_bigEndian hlt, htext, Utf8.decode_encode]

theorem decodeStrings_eq_ok_iff {count index : Nat} {o rest : Octets} {strings : List String} :
    decodeStrings kind count index o = .ok (strings, rest) ↔
      strings.length = count ∧ (∀ s ∈ strings, s.utf8ByteSize ≤ maxLength) ∧
        o = strings.flatMap stringOctets ++ rest := by
  induction count generalizing index o strings with
  | zero =>
    simp only [decodeStrings, Except.ok.injEq, Prod.mk.injEq, List.length_eq_zero_iff]
    constructor
    · rintro ⟨rfl, rfl⟩
      exact ⟨rfl, by simp, rfl⟩
    · rintro ⟨rfl, -, rfl⟩
      exact ⟨rfl, rfl⟩
  | succ count ih =>
    rw [decodeStrings, bind_eq_ok_iff]
    constructor
    · rintro ⟨⟨s, tail⟩, hs, h⟩
      obtain ⟨⟨more, rest'⟩, hmore, h⟩ := bind_eq_ok_iff.1 h
      cases h
      obtain ⟨hfits, rfl⟩ := decodeString_eq_ok_iff.1 hs
      obtain ⟨rfl, hall, rfl⟩ := ih.1 hmore
      refine ⟨rfl, List.forall_mem_cons.2 ⟨hfits, hall⟩, ?_⟩
      rw [List.flatMap_cons, List.append_assoc]
    · rintro ⟨hlength, hall, rfl⟩
      obtain ⟨s, more, rfl⟩ := List.exists_cons_of_length_eq_add_one hlength
      obtain ⟨hs, hmore⟩ := List.forall_mem_cons.1 hall
      refine ⟨(s, more.flatMap stringOctets ++ rest), decodeString_eq_ok_iff.2 ⟨hs, ?_⟩, ?_⟩
      · rw [List.flatMap_cons, List.append_assoc]
      · exact bind_eq_ok_iff.2 ⟨(more, rest), ih.2 ⟨Nat.succ.inj hlength, hmore, rfl⟩, rfl⟩

theorem decodeList_eq_ok_iff {o rest : Octets} {strings : List String} :
    decodeList kind o = .ok (strings, rest) ↔ Storable strings ∧ o = listOctets strings ++ rest := by
  constructor
  · intro h
    unfold decodeList at h
    split at h
    · cases h
    · rename_i field content hfield
      dsimp only at h
      split at h
      · rename_i hcount
        obtain ⟨hlength, hall, rfl⟩ := decodeStrings_eq_ok_iff.1 h
        obtain ⟨rfl, hwidth⟩ := splitAt?_eq_some_iff.1 hfield
        refine ⟨⟨hlength ▸ hcount, hall⟩, ?_⟩
        rw [listOctets, hlength, ← hwidth, bigEndian_ofBigEndian, List.append_assoc]
      · cases h
  · rintro ⟨hs, rfl⟩
    have hfield : splitAt? 4 (listOctets strings ++ rest) =
        some (bigEndian 4 strings.length, strings.flatMap stringOctets ++ rest) :=
      splitAt?_eq_some_iff.2 ⟨List.append_assoc _ _ _, length_bigEndian _ _⟩
    have hlt : strings.length < 256 ^ 4 := Nat.lt_of_le_of_lt hs.count (by decide)
    simp only [decodeList, hfield, ofBigEndian_bigEndian hlt, if_pos hs.count]
    exact decodeStrings_eq_ok_iff.2 ⟨rfl, hs.lengths, rfl⟩

theorem decode_eq_ok_iff_decode? {o : Octets} {s : Split} : decode o = .ok s ↔ decode? o = .ok s := by
  unfold decode
  cases decode? o <;> simp

/-- **Exactly the stored forms are read.** -/
theorem decode_eq_ok_iff {o : Octets} {s : Split} :
    decode o = .ok s ↔ ∃ paths hosts, Storable paths ∧ Storable hosts ∧
      o = listOctets paths ++ listOctets hosts ∧ s = .of paths hosts := by
  rw [decode_eq_ok_iff_decode?]
  simp only [decode?, bind_eq_ok_iff, Prod.exists, decodeList_eq_ok_iff]
  constructor
  · rintro ⟨paths, _, ⟨hpaths, rfl⟩, hosts, rest, ⟨hhosts, rfl⟩, h⟩
    split at h
    · rename_i hrest
      rw [List.isEmpty_iff.1 hrest, List.append_nil]
      cases h
      exact ⟨paths, hosts, hpaths, hhosts, rfl, rfl⟩
    · cases h
  · rintro ⟨paths, hosts, hpaths, hhosts, rfl, rfl⟩
    exact ⟨paths, _, ⟨hpaths, rfl⟩, hosts, [], ⟨hhosts, (List.append_nil _).symm⟩, rfl⟩

theorem of_paths_hosts (s : Split) : of s.paths s.hosts = s := by
  obtain ⟨paths, hosts, hnodup⟩ := s
  simp only [of, eraseDups_of_nodup hnodup]

/-- **A split is read back as written.** -/
theorem decode_of_encode {s : Split} {o : Octets} (h : s.encode = .ok o) : decode o = .ok s := by
  obtain ⟨hpaths, hhosts, rfl⟩ := encode_eq_ok_iff.1 h
  exact decode_eq_ok_iff.2 ⟨s.paths, s.hosts, hpaths, hhosts, rfl, (of_paths_hosts s).symm⟩

end Split

end Apportion
