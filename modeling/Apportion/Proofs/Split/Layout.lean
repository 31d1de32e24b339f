/-
  Which octets store a split, and when storing the split read gives them back.

  * `Layout`: octets that are two lists of strings, one behind the other, as they are stored.
  * `eq_corruptSplit_of_decode`, `eq_serialization_of_encode`: how reading and writing fail.
  * `length_listOctets_le`, `listOctets_injective`: the stored form of a list.
  * `decode_iff_layout`: exactly the layouts are read, and written again without repeated hosts.
  * `encode_of_iff_fits`: exactly the splits that fit the layout are written, and read back.
-/
import Apportion.Proofs.Split.Codec
import Mathlib.Data.Finset.Card

namespace Apportion

namespace Split

open Sequence

/-- Octets that are laid out as two lists: each has its count in four octets in front, and each of
    its strings the number of its octets in two. -/
structure Layout (o : Octets) (paths hosts : List String) : Prop where
  count_paths : paths.length ≤ 2 ^ 31 - 1
  count_hosts : hosts.length ≤ 2 ^ 31 - 1
  lengths : ∀ s ∈ paths ++ hosts, s.utf8ByteSize ≤ 65535
  octets : o = listOctets paths ++ listOctets hosts

variable {o : Octets} {s : Split} {paths hosts : List String} {failure : Failure}

theorem layout_iff :
    Layout o paths hosts ↔
      Storable paths ∧ Storable hosts ∧ o = listOctets paths ++ listOctets hosts := by
  constructor
  · intro h
    exact ⟨⟨h.count_paths, fun s hs => h.lengths s (List.mem_append_left _ hs)⟩,
      ⟨h.count_hosts, fun s hs => h.lengths s (List.mem_append_right _ hs)⟩, h.octets⟩
  · rintro ⟨hpaths, hhosts, ho⟩
    refine ⟨hpaths.count, hhosts.count, fun s hs => ?_, ho⟩
    rcases List.mem_append.1 hs with hs | hs
    · exact hpaths.lengths s hs
    · exact hhosts.lengths s hs

/-! ## Failing -/

theorem eq_corruptSplit_of_decode (h : decode o = .error failure) :
    ∃ defect : Defect, failure = .corruptSplit defect.message := by
  unfold decode at h
  split at h
  · cases h
  · rename_i defect _
    cases h
    exact ⟨defect, rfl⟩

theorem eq_serialization_of_encodeString {kind : Section} {string : String}
    (h : encodeString kind string = .error failure) : ∃ problem, failure = .serialization problem := by
  unfold encodeString at h
  dsimp only at h
  split at h
  · cases h
  · cases h
    exact ⟨_, rfl⟩

theorem eq_serialization_of_encodeList {kind : Section} {strings : List String}
    (h : encodeList kind strings = .error failure) : ∃ problem, failure = .serialization problem := by
  unfold encodeList at h
  split at h
  · rcases bind_eq_error_iff.1 h with h | ⟨items, -, h⟩
    · obtain ⟨-, string, -, -, -, hstring⟩ := mapM_eq_error_iff.1 h
      exact eq_serialization_of_encodeString hstring
    · cases h
  · cases h
    exact ⟨_, rfl⟩

theorem eq_serialization_of_encode (h : s.encode = .error failure) :
    ∃ problem, failure = .serialization problem := by
  rcases bind_eq_error_iff.1 h with h | ⟨_, -, h⟩
  · exact eq_serialization_of_encodeList h
  rcases bind_eq_error_iff.1 h with h | ⟨_, -, h⟩
  · exact eq_serialization_of_encodeList h
  · cases h

/-! ## Stored lists -/

/-- Fewer strings are stored in fewer octets. -/
theorem length_listOctets_le {strings more : List String} (h : strings.Subperm more) :
    (listOctets strings).length ≤ (listOctets more).length := by
  rw [listOctets, listOctets, List.length_append, List.length_append, Octets.length_bigEndian,
    Octets.length_bigEndian]
  exact Nat.add_le_add_left (Octets.length_flatMap_le stringOctets h) 4

theorem listOctets_injective {strings strings' : List String} (h : Storable strings)
    (h' : Storable strings') (heq : listOctets strings = listOctets strings') :
    strings = strings' := by
  have hread : ∀ l, Storable l → decodeList .paths (listOctets l) = .ok (l, []) := fun l hl =>
    decodeList_eq_ok_iff.2 ⟨hl, (List.append_nil _).symm⟩
  have hboth := (hread _ h).symm.trans ((congrArg _ heq).trans (hread _ h'))
  cases hboth
  rfl

theorem Storable.of_subperm {strings more : List String} (hmore : Storable more)
    (h : strings.Subperm more) : Storable strings :=
  ⟨h.length_le.trans hmore.count, fun s hs => hmore.lengths s (h.subset hs)⟩

/-! ## Reading and writing -/

theorem decode_of_layout (h : Layout o paths hosts) : decode o = .ok (.of paths hosts) := by
  obtain ⟨hpaths, hhosts, ho⟩ := layout_iff.1 h
  exact decode_eq_ok_iff.2 ⟨paths, hosts, hpaths, hhosts, ho, rfl⟩

/-- Writing what a layout stores leaves out the hosts that are listed again. -/
theorem encode_of_layout (h : Layout o paths hosts) :
    ∃ again, (of paths hosts).encode = .ok again ∧ again.length ≤ o.length ∧
      (again = o ↔ hosts.Nodup) := by
  obtain ⟨hpaths, hhosts, rfl⟩ := layout_iff.1 h
  have hsubperm := (hosts_of paths hosts).subperm
  have hfirsts := hhosts.of_subperm hsubperm
  refine ⟨_, encode_eq_ok_iff.2 ⟨hpaths, hfirsts, rfl⟩, ?_, ?_⟩
  · rw [List.length_append, List.length_append]
    exact Nat.add_le_add_left (length_listOctets_le hsubperm) _
  · constructor
    · intro heq
      rw [← listOctets_injective hfirsts hhosts (List.append_cancel_left heq)]
      exact (of paths hosts).distinct
    · intro hdistinct
      exact congrArg (listOctets paths ++ listOctets ·) (eraseDups_of_nodup hdistinct)

/-- **Exactly the layouts are read**: as the paths of the one list and the first occurrences in
    the other; all other octets are corrupt.  The split read can be written again, in no more
    octets, and in the same ones iff no host is listed twice. -/
theorem decode_iff_layout (o : Octets) :
    (∀ s : Split, decode o = .ok s ↔
      ∃ hosts, Layout o s.paths hosts ∧ FirstOccurrences hosts s.hosts) ∧
    ((¬ ∃ paths hosts, Layout o paths hosts) →
      ∃ problem, decode o = .error (.corruptSplit problem)) ∧
    ∀ paths hosts, Layout o paths hosts → ∃ s again, decode o = .ok s ∧ s.encode = .ok again ∧
      again.length ≤ o.length ∧ (again = o ↔ hosts.Nodup) := by
  refine ⟨fun s => ?_, fun hnone => ?_, fun paths hosts h => ?_⟩
  · rw [decode_eq_ok_iff]
    constructor
    · rintro ⟨paths, hosts, hpaths, hhosts, ho, hs⟩
      obtain ⟨rfl, hfirsts⟩ := eq_of_iff.1 hs
      exact ⟨hosts, layout_iff.2 ⟨hpaths, hhosts, ho⟩, hfirsts⟩
    · rintro ⟨hosts, hlayout, hfirsts⟩
      obtain ⟨hpaths, hhosts, ho⟩ := layout_iff.1 hlayout
      exact ⟨s.paths, hosts, hpaths, hhosts, ho, eq_of_iff.2 ⟨rfl, hfirsts⟩⟩
  · cases h : decode o with
    | ok s =>
      obtain ⟨paths, hosts, hpaths, hhosts, ho, -⟩ := decode_eq_ok_iff.1 h
      exact absurd ⟨paths, hosts, layout_iff.2 ⟨hpaths, hhosts, ho⟩⟩ hnone
    | error failure =>
      obtain ⟨defect, rfl⟩ := eq_corruptSplit_of_decode h
      exact ⟨defect.message, rfl⟩
  · obtain ⟨again, hagain⟩ := encode_of_layout h
    exact ⟨of paths hosts, again, decode_of_layout h, hagain⟩

/-- **Exactly the splits that fit are written**, whatever paths and hosts they are made of: they
    have not too many paths and not too many different hosts, and none of them too long.  A
    split written is read back, and one that does not fit has no serialization. -/
theorem encode_of_iff_fits (paths hosts : List String) :
    ((∃ o, (of paths hosts).encode = .ok o) ↔
      paths.length ≤ 2 ^ 31 - 1 ∧ hosts.toFinset.card ≤ 2 ^ 31 - 1 ∧
        ∀ s ∈ paths ++ hosts, s.utf8ByteSize ≤ 65535) ∧
    (∀ o, (of paths hosts).encode = .ok o → decode o = .ok (of paths hosts)) ∧
    ∀ failure, (of paths hosts).encode = .error failure →
      ∃ problem, failure = .serialization problem := by
  refine ⟨?_, fun o ho => decode_of_encode ho, fun failure h => eq_serialization_of_encode h⟩
  have hfirsts := hosts_of paths hosts
  have hmem : ∀ s, s ∈ paths ++ hosts ↔ s ∈ paths ++ (of paths hosts).hosts := fun s => by
    rw [List.mem_append, List.mem_append, hfirsts.mem_iff]
  have hcard : hosts.toFinset.card = (of paths hosts).hosts.length := by
    rw [← List.toFinset_card_of_nodup hfirsts.distinct]
    exact congrArg Finset.card (Finset.ext fun s => by
      rw [List.mem_toFinset, List.mem_toFinset, hfirsts.mem_iff])
  simp only [hmem, hcard]
  constructor
  · rintro ⟨o, ho⟩
    obtain ⟨hpaths, hhosts, ho⟩ := encode_eq_ok_iff.1 ho
    have hlayout := layout_iff.2 ⟨hpaths, hhosts, ho.symm⟩
    exact ⟨hlayout.count_paths, hlayout.count_hosts, hlayout.lengths⟩
  · rintro ⟨hpaths, hhosts, hlengths⟩
    obtain ⟨hpaths, hhosts, -⟩ := layout_iff.1 ⟨hpaths, hhosts, hlengths, rfl⟩
    exact ⟨_, encode_eq_ok_iff.2 ⟨hpaths, hhosts, rfl⟩⟩

end Split

end Apportion
