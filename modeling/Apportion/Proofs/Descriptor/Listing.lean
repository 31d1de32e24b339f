/-
  What octets say of a bundle, and the bundle that is made of it.

  * `Descriptor.Listing.descriptor`, `Bundle.Listing.bundle`: what is made of a listing.
  * `ReadsExactly`: octets are read iff they start with the form of a value that fits.
    `exactly_text` up to `Bundle.exactly_listing`: so are all parts of a bundle.
  * `Bundle.decode?_eq`: reading a bundle is reading its listing.
  * `Properties.ofList_subperm`: of the entries listed some are kept, each once.
-/
import Apportion.Proofs.Descriptor.Codec

namespace Apportion

open Sequence

/-! ## Properties out of entries -/

namespace Properties

theorem place_subperm (key value : String) (l : List (String × String)) :
    (place key value l).Subperm ((key, value) :: l) := by
  induction l with
  | nil => exact List.Subperm.refl _
  | cons e l ih =>
    obtain ⟨k, v⟩ := e
    rw [place]
    split
    · exact List.Subperm.refl _
    split
    · exact ((List.subperm_cons _).2 ih).trans (List.Perm.swap ..).subperm
    · exact ((List.sublist_cons_self _ l).cons_cons _).subperm

/-- **Of the entries listed some are kept**, each once. -/
theorem ofList_subperm (l : List (String × String)) : (ofList l).entries.Subperm l := by
  have hfold : ∀ (l : List (String × String)) (p : Properties),
      (l.foldl (fun p e => p.insert e.1 e.2) p).entries.Subperm (p.entries ++ l) := by
    intro l
    induction l with
    | nil =>
      intro p
      rw [List.append_nil]
      exact List.Subperm.refl _
    | cons e l ih =>
      intro p
      refine (ih _).trans (((List.subperm_append_right l).2 (place_subperm ..)).trans ?_)
      exact List.perm_middle.symm.subperm
  exact hfold l empty

/-- Entries that rise are all kept. -/
theorem entries_ofList {l : List (String × String)} (h : l.Pairwise fun a b => a.1 < b.1) :
    (ofList l).entries = l :=
  congrArg entries (ofList_entries ⟨l, h⟩)

end Properties

/-! ## Listings -/

/-- The descriptor listed; of entries with one key the last one counts. -/
def Descriptor.Listing.descriptor (l : Descriptor.Listing) : Descriptor :=
  { source := l.source, start := l.start, stop := l.stop, properties := .ofList l.entries }

namespace Bundle.Listing

/-- The bundle listed. -/
def bundle : Listing → Bundle
  | single l => .single l.descriptor
  | container ls => .container (ls.map Descriptor.Listing.descriptor)

/-- The maps listed. -/
def maps : Listing → List (List (String × String))
  | single l => [l.entries]
  | container ls => ls.map Descriptor.Listing.entries

end Bundle.Listing

/-! ## Reading -/

namespace Descriptor

/-- A decoder reads the forms of values that fit, whatever follows them, and nothing else. -/
def ReadsExactly {α : Type} (decode : Decoder α) (fits : α → Prop) (form : α → Octets) : Prop :=
  ∀ o a rest, decode o = .ok (a, rest) ↔ fits a ∧ o = form a ++ rest

theorem exactly_nat (w : Nat) : ReadsExactly (decodeNat w) (· < 256 ^ w) (Octets.littleEndian w) := by
  intro o n rest
  constructor
  · intro h
    unfold decodeNat at h
    split at h
    · cases h
    · rename_i field rest' hsplit
      cases h
      obtain ⟨rfl, rfl⟩ := Octets.splitAt?_eq_some_iff.1 hsplit
      exact ⟨Octets.ofLittleEndian_lt field, by rw [Octets.littleEndian_ofLittleEndian]⟩
  · rintro ⟨hn, rfl⟩
    exact (delimits_nat hn).reads rest

theorem exactly_number : ReadsExactly decodeNumber (fun _ => True) encodeNumber := by
  intro o n rest
  constructor
  · intro h
    obtain ⟨⟨m, mid⟩, hm, h⟩ := bind_eq_ok_iff.1 h
    cases h
    obtain ⟨hlt, rfl⟩ := (exactly_nat 8 _ _ _).1 hm
    exact ⟨trivial, by rw [encodeNumber, UInt64.toNat_ofNat_of_lt' hlt]⟩
  · rintro ⟨-, rfl⟩
    exact (delimits_number n).reads rest

theorem exactly_text : ReadsExactly decodeText (·.utf8ByteSize < 2 ^ 64) encodeText := by
  intro o s rest
  constructor
  · intro hread
    obtain ⟨⟨length, mid⟩, hlength, h⟩ := bind_eq_ok_iff.1 hread
    obtain ⟨hlt, rfl⟩ := (exactly_nat 8 _ _ _).1 hlength
    dsimp only at h
    split at h
    · cases h
    · rename_i content rest' hsplit
      obtain ⟨rfl, rfl⟩ := Octets.splitAt?_eq_some_iff.1 hsplit
      split at h
      · cases h
      · rename_i t ht
        cases h
        obtain rfl := Utf8.decode_eq_ok_iff.1 ht
        rw [Utf8.length_encode] at hlt
        exact ⟨hlt, by rw [encodeText, encodeCount, Utf8.length_encode, List.append_assoc]⟩
  · rintro ⟨hs, rfl⟩
    exact (delimits_text hs).reads rest

namespace ReadsExactly

variable {α : Type} {decode : Decoder α} {fits : α → Prop} {form : α → Octets}

theorem optional (h : ReadsExactly decode fits form) :
    ReadsExactly (decodeOptional decode) (fun a? => ∀ a ∈ a?, fits a) (encodeOptional form) := by
  intro o a? rest
  constructor
  · intro hread
    obtain ⟨⟨tag, mid⟩, htag, hvalue⟩ := bind_eq_ok_iff.1 hread
    obtain ⟨-, rfl⟩ := (exactly_nat 1 _ _ _).1 htag
    rcases tag with _ | _ | tag
    · cases hvalue
      exact ⟨fun _ h => (by cases h), rfl⟩
    · obtain ⟨⟨a, rest'⟩, ha, hvalue⟩ := bind_eq_ok_iff.1 hvalue
      cases hvalue
      obtain ⟨hfits, rfl⟩ := (h _ _ _).1 ha
      exact ⟨fun _ h => Option.some.inj h ▸ hfits, rfl⟩
    · cases hvalue
  · rintro ⟨hfits, rfl⟩
    cases a? with
    | none => exact bind_eq_ok_iff.2 ⟨(0, rest), (exactly_nat 1 _ _ _).2 ⟨by decide, rfl⟩, rfl⟩
    | some a =>
      have ha : decode (form a ++ rest) = .ok (a, rest) := (h _ _ _).2 ⟨hfits a rfl, rfl⟩
      refine bind_eq_ok_iff.2 ⟨(1, form a ++ rest), (exactly_nat 1 _ _ _).2 ⟨by decide, rfl⟩, ?_⟩
      exact bind_eq_ok_iff.2 ⟨(a, rest), ha, rfl⟩

theorem repeated (h : ReadsExactly decode fits form) (count : Nat) :
    ReadsExactly (decodeRepeated decode count) (fun as => as.length = count ∧ ∀ a ∈ as, fits a)
      (·.flatMap form) := by
  induction count with
  | zero =>
    intro o as rest
    constructor
    · intro hread
      cases hread
      exact ⟨⟨rfl, fun _ h => (by cases h)⟩, rfl⟩
    · rintro ⟨⟨hlength, -⟩, rfl⟩
      rw [List.length_eq_zero_iff.1 hlength]
      rfl
  | succ count ih =>
    intro o as rest
    constructor
    · intro hread
      obtain ⟨⟨a, mid⟩, ha, hread⟩ := bind_eq_ok_iff.1 hread
      obtain ⟨⟨as', rest'⟩, has', hread⟩ := bind_eq_ok_iff.1 hread
      cases hread
      obtain ⟨hfits, rfl⟩ := (h _ _ _).1 ha
      obtain ⟨⟨rfl, hall⟩, rfl⟩ := (ih _ _ _).1 has'
      exact ⟨⟨rfl, List.forall_mem_cons.2 ⟨hfits, hall⟩⟩,
        by simp only [List.flatMap_cons, List.append_assoc]⟩
    · rintro ⟨⟨hlength, hall⟩, rfl⟩
      obtain ⟨a, as', rfl⟩ := List.exists_cons_of_length_eq_add_one hlength
      obtain ⟨hfits, hall⟩ := List.forall_mem_cons.1 hall
      refine bind_eq_ok_iff.2 ⟨(a, as'.flatMap form ++ rest), (h _ _ _).2 ⟨hfits, ?_⟩, ?_⟩
      · simp only [List.flatMap_cons, List.append_assoc]
      · exact bind_eq_ok_iff.2
          ⟨(as', rest), (ih _ _ _).2 ⟨⟨Nat.succ.inj hlength, hall⟩, rfl⟩, rfl⟩

theorem many (h : ReadsExactly decode fits form) : ReadsExactly (decodeMany decode)
    (fun as => as.length < 2 ^ 64 ∧ ∀ a ∈ as, fits a) (encodeMany form) := by
  intro o as rest
  constructor
  · intro hread
    obtain ⟨⟨count, mid⟩, hcount, hitems⟩ := bind_eq_ok_iff.1 hread
    obtain ⟨hlt, rfl⟩ := (exactly_nat 8 _ _ _).1 hcount
    obtain ⟨⟨rfl, hall⟩, rfl⟩ := (h.repeated count mid as rest).1 hitems
    exact ⟨⟨hlt, hall⟩, by simp only [encodeMany, encodeCount, List.append_assoc]⟩
  · rintro ⟨⟨hlt, hall⟩, rfl⟩
    refine bind_eq_ok_iff.2 ⟨(as.length, as.flatMap form ++ rest),
      (exactly_nat 8 _ _ _).2 ⟨hlt, ?_⟩, (h.repeated _ _ _ _).2 ⟨⟨rfl, hall⟩, rfl⟩⟩
    simp only [encodeMany, encodeCount, List.append_assoc]

end ReadsExactly

theorem exactly_entry : ReadsExactly decodeEntry
    (fun e => e.1.utf8ByteSize < 2 ^ 64 ∧ e.2.utf8ByteSize < 2 ^ 64) encodeEntry := by
  intro o e rest
  unfold decodeEntry
  simp only [bind_eq_ok_iff, Prod.exists, exactly_text _ _ _]
  constructor
  · rintro ⟨key, _, ⟨hkey, rfl⟩, value, _, ⟨hvalue, rfl⟩, h⟩
    cases h
    exact ⟨⟨hkey, hvalue⟩, (List.append_assoc ..).symm⟩
  · rintro ⟨⟨hkey, hvalue⟩, rfl⟩
    exact ⟨e.1, _, ⟨hkey, List.append_assoc ..⟩, e.2, rest, ⟨hvalue, rfl⟩, rfl⟩

/-! ### Listings -/

/-- Reads what octets say of a descriptor. -/
def decodeListing : Decoder Listing := fun o => do
  let (source, o) ← decodeOptional decodeText o
  let (start, o) ← decodeNumber o
  let (stop, o) ← decodeOptional decodeNumber o
  let (entries, o) ← decodeMany decodeEntry o
  return (⟨source, start, stop, entries⟩, o)

theorem exactly_listing : ReadsExactly decodeListing Listing.Fits Listing.encode := by
  intro o l rest
  unfold decodeListing
  simp only [bind_eq_ok_iff, Prod.exists, exactly_text.optional _ _ _, exactly_number _ _ _,
    exactly_number.optional _ _ _, exactly_entry.many _ _ _]
  constructor
  · rintro ⟨source, _, ⟨hsource, rfl⟩, start, _, ⟨-, rfl⟩, stop, _, ⟨-, rfl⟩, entries, _,
      ⟨⟨hcount, hentries⟩, rfl⟩, h⟩
    cases h
    exact ⟨⟨hsource, hcount, hentries⟩, by simp only [Listing.encode, List.append_assoc]⟩
  · rintro ⟨h, rfl⟩
    refine ⟨l.source, _, ⟨h.source, ?_⟩, l.start, _, ⟨trivial, rfl⟩, l.stop, _,
      ⟨fun _ _ => trivial, rfl⟩, l.entries, rest, ⟨⟨h.count, h.entries⟩, rfl⟩, rfl⟩
    simp only [Listing.encode, List.append_assoc]

/-- Reads a value and makes another one of it. -/
def Decoder.map {α β : Type} (decode : Decoder α) (f : α → β) : Decoder β := fun o =>
  decode o >>= fun (a, o) => .ok (f a, o)

theorem decode_eq : decode = decodeListing.map Listing.descriptor := by
  funext o
  simp only [decode, decodeListing, Decoder.map, bind_assoc]
  rfl

theorem decodeRepeated_map {α β : Type} (decode : Decoder α) (f : α → β) (count : Nat) :
    decodeRepeated (decode.map f) count = (decodeRepeated decode count).map (List.map f) := by
  induction count with
  | zero => rfl
  | succ count ih =>
    funext o
    simp only [decodeRepeated, ih, Decoder.map, bind_assoc]
    rfl

theorem decodeMany_map {α β : Type} (decode : Decoder α) (f : α → β) :
    decodeMany (decode.map f) = (decodeMany decode).map (List.map f) := by
  funext o
  simp only [decodeMany, decodeRepeated_map, Decoder.map, bind_assoc]

end Descriptor

namespace Bundle

open Descriptor (Decoder ReadsExactly)

/-- Reads what octets say of a bundle. -/
def decodeListing : Decoder Listing := fun o => do
  match ← Descriptor.decodeNat 4 o with
  | (0, o) => Descriptor.decodeListing.map .single o
  | (1, o) => (Descriptor.decodeMany Descriptor.decodeListing).map .container o
  | (kind, _) => throw (.unknownKind kind)

theorem exactly_listing : ReadsExactly decodeListing Listing.Fits Listing.encode := by
  intro o l rest
  constructor
  · intro hread
    obtain ⟨⟨kind, mid⟩, hkind, hlisting⟩ := bind_eq_ok_iff.1 hread
    obtain ⟨-, rfl⟩ := (Descriptor.exactly_nat 4 _ _ _).1 hkind
    rcases kind with _ | _ | kind
    · obtain ⟨⟨l, rest'⟩, hl, hlisting⟩ := bind_eq_ok_iff.1 hlisting
      cases hlisting
      obtain ⟨hfits, rfl⟩ := (Descriptor.exactly_listing _ _ _).1 hl
      exact ⟨hfits, (List.append_assoc ..).symm⟩
    · obtain ⟨⟨ls, rest'⟩, hls, hlisting⟩ := bind_eq_ok_iff.1 hlisting
      cases hlisting
      obtain ⟨hfits, rfl⟩ := (Descriptor.exactly_listing.many _ _ _).1 hls
      exact ⟨hfits, (List.append_assoc ..).symm⟩
    · cases hlisting
  · rintro ⟨hfits, rfl⟩
    cases l with
    | single l =>
      refine bind_eq_ok_iff.2 ⟨(0, l.encode ++ rest),
        (Descriptor.exactly_nat 4 _ _ _).2 ⟨by decide, List.append_assoc ..⟩, ?_⟩
      exact bind_eq_ok_iff.2 ⟨(l, rest), (Descriptor.exactly_listing _ _ _).2 ⟨hfits, rfl⟩, rfl⟩
    | container ls =>
      refine bind_eq_ok_iff.2 ⟨(1, Descriptor.encodeMany Descriptor.Listing.encode ls ++ rest),
        (Descriptor.exactly_nat 4 _ _ _).2 ⟨by decide, List.append_assoc ..⟩, ?_⟩
      exact bind_eq_ok_iff.2
        ⟨(ls, rest), (Descriptor.exactly_listing.many _ _ _).2 ⟨hfits, rfl⟩, rfl⟩

/-- **Reading a bundle is reading its listing.** -/
theorem decode?_eq : decode? = decodeListing.map Listing.bundle := by
  funext o
  change (Descriptor.decodeNat 4 o >>= _) = (Descriptor.decodeNat 4 o >>= _) >>= _
  rw [bind_assoc]
  congr 1
  funext ⟨kind, mid⟩
  rcases kind with _ | _ | kind
  · simp only [Descriptor.decode_eq, Decoder.map, bind_assoc]
    rfl
  · simp only [Descriptor.decode_eq, Descriptor.decodeMany_map, Decoder.map, bind_assoc]
    rfl
  · rfl

end Bundle

end Apportion
