/-
  The stored form of a bundle among all octets that are read as that bundle.

  * `Bundle.Lists`: octets that start with a listing, field by field.
  * `Listing.length_encode_le`: what is made of a listing is not stored in more octets.
  * `Listing.of_bundle`: maps that are listed by rising key are listed as they are stored.
  * `Bundle.encode_of_decode`: a bundle that is read is stored in no more octets, is read back, and
    its octets are the front of those it was read from iff these list all keys in rising order.
-/
import Apportion.Proofs.Descriptor.Listing
import Apportion.Proofs.Text.Order

namespace Apportion

namespace Descriptor

/-! ## Listings of a descriptor -/

namespace Listing

variable {l : Listing}

/-- The keys listed rise. -/
def Rising (l : Listing) : Prop := l.entries.Pairwise fun e e' => e.1 < e'.1

theorem descriptor_of (d : Descriptor) : (of d).descriptor = d := by
  rw [descriptor, of, Properties.ofList_entries]

theorem of_descriptor (h : l.Rising) : of l.descriptor = l := by
  rw [of, descriptor, Properties.entries_ofList h]

theorem Fits.descriptor (h : l.Fits) : l.descriptor.Fits :=
  have hsubperm := Properties.ofList_subperm l.entries
  ⟨h.source, hsubperm.length_le.trans_lt h.count, fun e he => h.entries e (hsubperm.subset he)⟩

/-- Entries that are left out take no octets. -/
theorem length_encode_le (l : Listing) : l.descriptor.encode.length ≤ l.encode.length := by
  have hentries :=
    Octets.length_flatMap_le encodeEntry (Properties.ofList_subperm l.entries)
  have hmany : (encodeMany encodeEntry (Properties.ofList l.entries).entries).length ≤
      (encodeMany encodeEntry l.entries).length := by
    simp only [encodeMany, encodeCount, List.length_append, Octets.length_littleEndian]
    exact Nat.add_le_add_left hentries 8
  simp only [Descriptor.encode, encode, List.length_append]
  exact Nat.add_le_add_left hmany _

end Listing

end Descriptor

namespace Bundle

/-! ## Listings of a bundle -/

namespace Listing

variable {l : Listing} {b : Bundle}

/-- The keys of all maps rise. -/
def Rising (l : Listing) : Prop := ∀ entries ∈ l.maps, entries.Pairwise fun e e' => e.1 < e'.1

theorem bundle_of (b : Bundle) : (of b).bundle = b := by
  cases b with
  | single d => rw [of, bundle, Descriptor.Listing.descriptor_of]
  | container ds =>
    have hmap : ds.map (Descriptor.Listing.descriptor ∘ Descriptor.Listing.of) = ds :=
      List.map_id'' Descriptor.Listing.descriptor_of ds
    rw [of, bundle, List.map_map, hmap]

theorem rising_of (b : Bundle) : (of b).Rising := by
  cases b with
  | single d => exact List.forall_mem_singleton.2 d.properties.sorted
  | container ds =>
    intro entries hentries
    simp only [of, maps, List.map_map, List.mem_map] at hentries
    obtain ⟨d, -, rfl⟩ := hentries
    exact d.properties.sorted

theorem Fits.bundle (h : l.Fits) : l.bundle.Fits := by
  cases l with
  | single l => exact Descriptor.Listing.Fits.descriptor h
  | container ls =>
    refine fits_container_iff.2 ⟨by rw [List.length_map]; exact h.1, fun d hd => ?_⟩
    obtain ⟨l, hl, rfl⟩ := List.mem_map.1 hd
    exact (h.2 l hl).descriptor

/-- **What is listed by rising key is listed as it is stored.** -/
theorem of_bundle (h : l.Rising) : of l.bundle = l := by
  cases l with
  | single l =>
    rw [bundle, of, Descriptor.Listing.of_descriptor (h _ List.mem_cons_self)]
  | container ls =>
    have hmap : ls.map (Descriptor.Listing.of ∘ Descriptor.Listing.descriptor) = ls :=
      List.map_congr_left (fun l hl =>
        Descriptor.Listing.of_descriptor (h _ (List.mem_map_of_mem hl))) |>.trans ls.map_id
    rw [bundle, of, List.map_map, hmap]

theorem length_encode_le (l : Listing) : l.bundle.encode.length ≤ l.encode.length := by
  cases l with
  | single l =>
    rw [bundle, Bundle.encode, encode, List.length_append, List.length_append]
    exact Nat.add_le_add_left l.length_encode_le _
  | container ls =>
    simp only [bundle, Bundle.encode, encode, Descriptor.encodeMany, Descriptor.encodeCount,
      List.length_append, Octets.length_littleEndian, List.length_flatMap, List.map_map]
    refine Nat.add_le_add_left (Nat.add_le_add_left ?_ 8) 4
    exact List.sum_le_sum fun l _ => l.length_encode_le

end Listing

/-! ## Octets and their listing -/

/-- Octets start with a listing, of which all counts fit; `rest` is what follows it. -/
structure Lists (o : Octets) (l : Listing) (rest : Octets) : Prop where
  fits : l.Fits
  octets : o = l.fields.flatMap Field.octets ++ rest

variable {o rest rest' : Octets} {l l' : Listing} {b : Bundle}

theorem lists_iff : Lists o l rest ↔ decodeListing o = .ok (l, rest) := by
  rw [exactly_listing]
  constructor
  · intro h
    exact ⟨h.fits, by rw [l.encode_eq_fields]; exact h.octets⟩
  · rintro ⟨hfits, ho⟩
    exact ⟨hfits, by rw [← l.encode_eq_fields]; exact ho⟩

/-- Octets start with one listing at most. -/
theorem Lists.unique (h : Lists o l rest) (h' : Lists o l' rest') : l' = l ∧ rest' = rest := by
  have hboth := (lists_iff.1 h').symm.trans (lists_iff.1 h)
  cases hboth
  exact ⟨rfl, rfl⟩

theorem decode_eq_ok_iff : decode o = .ok b ↔ ∃ l rest, Lists o l rest ∧ l.bundle = b := by
  simp only [lists_iff]
  rw [decode, decode?_eq]
  unfold Descriptor.Decoder.map
  cases decodeListing o with
  | error defect =>
    constructor
    · intro h
      cases h
    · rintro ⟨_, _, h, -⟩
      cases h
  | ok read =>
    constructor
    · intro h
      cases h
      exact ⟨read.1, read.2, rfl, rfl⟩
    · rintro ⟨l, rest, hread, rfl⟩
      cases hread
      rfl

/-- The stored form of a bundle lists it as it is stored. -/
theorem lists_of (h : b.Fits) (rest : Octets) : Lists (b.encode ++ rest) (.of b) rest :=
  ⟨h, by rw [← Listing.encode_eq_fields, Listing.encode_of]⟩

theorem decode_encode (h : b.Fits) : decode b.encode = .ok b :=
  decode_eq_ok_iff.2 ⟨.of b, [], by simpa using lists_of h [], Listing.bundle_of b⟩

/-- The stored form is at the front of the octets iff these list the bundle as it is stored. -/
theorem Lists.encode_prefix_iff (h : Lists o l rest) : l.bundle.encode <+: o ↔ l.Rising := by
  constructor
  · rintro ⟨rest', rfl⟩
    obtain ⟨heq, -⟩ := h.unique (lists_of h.fits.bundle rest')
    rw [← heq]
    exact Listing.rising_of l.bundle
  · intro hrising
    refine ⟨rest, ?_⟩
    rw [← Listing.encode_of, Listing.of_bundle hrising, Listing.encode_eq_fields]
    exact h.octets.symm

theorem Lists.length_encode_le (h : Lists o l rest) : l.bundle.encode.length ≤ o.length := by
  rw [h.octets, ← l.encode_eq_fields, List.length_append]
  exact Nat.le_add_right_of_le l.length_encode_le

/-- **A bundle that is read off octets is stored in no more of them, and is read back.**  The octets
    start with one listing, of which the bundle is made: its maps have the entries in any order, and
    of entries with one key the last one counts.  The stored form is the front of the octets iff
    each map lists its keys in rising order of their octets. -/
theorem encode_of_decode (h : decode o = .ok b) :
    b.encode.length ≤ o.length ∧ decode b.encode = .ok b ∧
    ∃ l rest, Lists o l rest ∧ l.bundle = b ∧
      (∀ l' rest', Lists o l' rest' → l' = l ∧ rest' = rest) ∧
      (b.encode <+: o ↔ ∀ entries ∈ l.maps,
        entries.Pairwise fun e e' => Utf8.encode e.1 < Utf8.encode e'.1) := by
  obtain ⟨l, rest, hlists, rfl⟩ := decode_eq_ok_iff.1 h
  refine ⟨hlists.length_encode_le, decode_encode hlists.fits.bundle, l, rest, hlists, rfl,
    fun _ _ => hlists.unique, ?_⟩
  simp only [Utf8.encode_lt_encode_iff]
  exact hlists.encode_prefix_iff

/-- A map with its keys out of order, one of them twice, and an octet behind it. -/
theorem encode_of_decode_twice :
    let l := Listing.single ⟨some "d", 2, none, [("b", "1"), ("a", "2"), ("b", "3")]⟩
    let b := single { source := some "d", start := 2, properties := .ofList [("a", "2"), ("b", "3")] }
    let o := l.encode ++ [7]
    decode o = .ok b ∧ decode b.encode = .ok b ∧ b.encode.length + 19 = o.length ∧
      ¬ b.encode <+: o := by
  intro l b o
  have hlists : Lists o l [7] := by
    refine ⟨⟨?_, by decide, by decide⟩, by rw [← l.encode_eq_fields]⟩
    rintro s ⟨⟩
    decide
  have hread : decode o = .ok b := decode_eq_ok_iff.2 ⟨l, [7], hlists, rfl⟩
  obtain ⟨-, hagain, l', rest, -, -, hunique, hprefix⟩ := encode_of_decode hread
  obtain ⟨rfl, -⟩ := hunique l [7] hlists
  refine ⟨hread, hagain, by decide +kernel, fun h => ?_⟩
  have hrising := hprefix.1 h _ List.mem_cons_self
  exact absurd (List.rel_of_pairwise_cons hrising List.mem_cons_self) (by decide +kernel)

end Bundle

end Apportion
