/-
  The stored form of a bundle delimits itself.

  * `Delimits`: octets from which a decoder reads a value, whatever follows, while it refuses all
    that is cut off them.  `Delimits.bind`: one value behind another one.
  * `delimits_nat` up to `Bundle.delimits_encode`: so do the encodings, each from its parts.
  * `Bundle.encode_delimits_itself`: a bundle is read back, and never from a part of its stored form.
-/
import Apportion.Proofs.Descriptor.Fields
import Apportion.Proofs.Resolution

namespace Apportion

open Sequence

/-! ## Properties in order -/

namespace Properties

theorem place_of_forall_lt {key value : String} {l : List (String × String)}
    (h : ∀ e ∈ l, e.1 < key) : place key value l = l ++ [(key, value)] := by
  induction l with
  | nil => rfl
  | cons e l ih =>
    obtain ⟨he, hl⟩ := List.forall_mem_cons.1 h
    rw [place, if_neg (String.lt_asymm he), if_pos he, ih hl, List.cons_append]

/-- Entries that rise are bound as they are listed. -/
theorem ofList_entries (p : Properties) : ofList p.entries = p := by
  have hfold : ∀ (l : List (String × String)) (q : Properties),
      (q.entries ++ l).Pairwise (fun a b => a.1 < b.1) →
        (l.foldl (fun p e => p.insert e.1 e.2) q).entries = q.entries ++ l := by
    intro l
    induction l with
    | nil =>
      intro q _
      rw [List.foldl_nil, List.append_nil]
    | cons e l ih =>
      intro q hsorted
      have hplace : (q.insert e.1 e.2).entries = q.entries ++ [e] := by
        refine place_of_forall_lt fun e' he' => ?_
        exact (List.pairwise_append.1 hsorted).2.2 e' he' e List.mem_cons_self
      rw [List.foldl_cons, ih _ (by rwa [hplace, List.append_assoc]), hplace, List.append_assoc]
      rfl
  have hentries := hfold p.entries empty p.sorted
  obtain ⟨entries, sorted⟩ := p
  rw [ofList]
  exact (Properties.mk.injEq ..).mpr hentries

end Properties

/-! ## Decoding -/

namespace Descriptor

/-- A decoder reads `a` off the octets `form`, whatever follows them, and refuses all octets that
    `form` goes on from. -/
structure Delimits {α : Type} (decode : Decoder α) (form : Octets) (a : α) : Prop where
  reads : ∀ rest, decode (form ++ rest) = .ok (a, rest)
  cut : ∀ front, front <+: form → front ≠ form → ∃ defect, decode front = .error defect

section
variable {α β : Type} {decode : Decoder α} {next : α × Octets → Except Defect (β × Octets)}
  {form form' : Octets} {a : α} {b : β}

theorem Delimits.pure (a : α) : Delimits (fun o => .ok (a, o)) [] a where
  reads _ := rfl
  cut _ hfront hne := absurd (List.prefix_nil.1 hfront) hne

/-- One value behind another one. -/
theorem Delimits.bind (h : Delimits decode form a)
    (h' : Delimits (fun o => next (a, o)) form' b) :
    Delimits (fun o => decode o >>= next) (form ++ form') b where
  reads rest := by
    rw [List.append_assoc, h.reads]
    exact h'.reads rest
  cut front hfront hne := by
    -- what is cut off lies in the second form, or in the first one as well
    rcases List.prefix_or_prefix_of_prefix hfront (List.prefix_append form form') with hin | hover
    · by_cases hform : front = form
      · subst hform
        have hform' : [] ≠ form' := by
          rintro rfl
          exact hne (List.append_nil _).symm
        obtain ⟨defect, hdefect⟩ := h'.cut [] List.nil_prefix hform'
        have hread := h.reads []
        rw [List.append_nil] at hread
        exact ⟨defect, by rw [hread]; exact hdefect⟩
      · obtain ⟨defect, hdefect⟩ := h.cut front hin hform
        exact ⟨defect, by rw [hdefect]; rfl⟩
    · obtain ⟨front', rfl⟩ := hover
      rw [List.prefix_append_right_inj] at hfront
      obtain ⟨defect, hdefect⟩ := h'.cut front' hfront fun heq => hne (by rw [heq])
      exact ⟨defect, by rw [h.reads]; exact hdefect⟩

/-- A value made from the one that is read. -/
theorem Delimits.map (h : Delimits decode form a) (f : α → β) :
    Delimits (fun o => decode o >>= fun (a, o) => .ok (f a, o)) form (f a) := by
  rw [← List.append_nil form]
  exact h.bind (Delimits.pure (f a))

end

/-! ### Numbers and texts -/

theorem delimits_nat {w n : Nat} (h : n < 256 ^ w) :
    Delimits (decodeNat w) (Octets.littleEndian w n) n where
  reads rest := by
    have hsplit : Octets.splitAt? w (Octets.littleEndian w n ++ rest) =
        some (Octets.littleEndian w n, rest) :=
      Octets.splitAt?_eq_some_iff.2 ⟨rfl, Octets.length_littleEndian w n⟩
    simp only [decodeNat, hsplit, Octets.ofLittleEndian_littleEndian h]
  cut front hfront hne := by
    have hlength := hfront.length_le
    have hshort : front.length ≠ w := fun heq =>
      hne (hfront.eq_of_length (by rw [heq, Octets.length_littleEndian]))
    rw [Octets.length_littleEndian] at hlength
    have hsplit : Octets.splitAt? w front = none :=
      Octets.splitAt?_eq_none_iff.2 (Nat.lt_of_le_of_ne hlength hshort)
    exact ⟨.endOfFile, by simp only [decodeNat, hsplit]⟩

theorem delimits_number (n : UInt64) : Delimits decodeNumber (encodeNumber n) n := by
  have h : Delimits (decodeNat 8) (encodeNumber n) n.toNat := delimits_nat n.toNat_lt
  have hmap := h.map UInt64.ofNat
  rwa [UInt64.ofNat_toNat] at hmap

/-- The content of a text, once its size is known. -/
theorem delimits_content (s : String) :
    Delimits (fun o => match Octets.splitAt? s.utf8ByteSize o with
      | none => throw .cutText
      | some (content, rest) =>
        match Utf8.decode content with
        | .error fault => throw (.notText fault)
        | .ok s => return (s, rest)) (Utf8.encode s) s where
  reads rest := by
    have hsplit : Octets.splitAt? s.utf8ByteSize (Utf8.encode s ++ rest) =
        some (Utf8.encode s, rest) :=
      Octets.splitAt?_eq_some_iff.2 ⟨rfl, Utf8.length_encode s⟩
    simp only [hsplit, Utf8.decode_encode]
    rfl
  cut front hfront hne := by
    have hlength := hfront.length_le
    have hshort : front.length ≠ s.utf8ByteSize := fun heq =>
      hne (hfront.eq_of_length (by rw [heq, Utf8.length_encode]))
    rw [Utf8.length_encode] at hlength
    have hsplit : Octets.splitAt? s.utf8ByteSize front = none :=
      Octets.splitAt?_eq_none_iff.2 (Nat.lt_of_le_of_ne hlength hshort)
    exact ⟨.cutText, by simp only [hsplit]; rfl⟩

theorem delimits_text {s : String} (h : s.utf8ByteSize < 2 ^ 64) :
    Delimits decodeText (encodeText s) s :=
  (delimits_nat (w := 8) h).bind (delimits_content s)

/-! ### What may be absent, and lists -/

section
variable {α : Type} {decode : Decoder α} {encode : α → Octets}

theorem delimits_optional {a? : Option α} (h : ∀ a ∈ a?, Delimits decode (encode a) a) :
    Delimits (decodeOptional decode) (encodeOptional encode a?) a? := by
  have htag : ∀ tag < 256, Delimits (decodeNat 1) (Octets.littleEndian 1 tag) tag :=
    fun tag htag => delimits_nat htag
  cases a? with
  | none =>
    refine ⟨fun rest => ?_, fun front hfront hne => ?_⟩
    · have hread := (htag 0 (by decide)).reads rest
      exact bind_eq_ok_iff.2 ⟨(0, rest), hread, rfl⟩
    · obtain ⟨defect, hdefect⟩ := (htag 0 (by decide)).cut front hfront hne
      exact ⟨defect, bind_eq_error_iff.2 (Or.inl hdefect)⟩
  | some a =>
    have hsome := (h a rfl).map some
    exact (htag 1 (by decide)).bind hsome

theorem delimits_repeated {items : List α} (h : ∀ a ∈ items, Delimits decode (encode a) a) :
    Delimits (decodeRepeated decode items.length) (items.flatMap encode) items := by
  induction items with
  | nil => exact Delimits.pure []
  | cons a items ih =>
    obtain ⟨ha, hitems⟩ := List.forall_mem_cons.1 h
    exact ha.bind ((ih hitems).map (a :: ·))

theorem delimits_many {items : List α} (hcount : items.length < 2 ^ 64)
    (h : ∀ a ∈ items, Delimits decode (encode a) a) :
    Delimits (decodeMany decode) (encodeMany encode items) items :=
  (delimits_nat (w := 8) hcount).bind (delimits_repeated h)

end

/-! ### Descriptors -/

theorem delimits_entry {e : String × String}
    (h : e.1.utf8ByteSize < 2 ^ 64 ∧ e.2.utf8ByteSize < 2 ^ 64) :
    Delimits decodeEntry (encodeEntry e) e :=
  (delimits_text h.1).bind ((delimits_text h.2).map (e.1, ·))

theorem Fits.delimits_encode {d : Descriptor} (h : d.Fits) : Delimits decode d.encode d := by
  obtain ⟨source, start, stop, properties⟩ := d
  have hsource : Delimits (decodeOptional decodeText) (encodeOptional encodeText source) source :=
    delimits_optional fun s hs => delimits_text (h.source s hs)
  have hstop : Delimits (decodeOptional decodeNumber) (encodeOptional encodeNumber stop) stop :=
    delimits_optional fun n _ => delimits_number n
  have hentries : Delimits (decodeMany decodeEntry) (encodeMany encodeEntry properties.entries)
      properties.entries := delimits_many h.count fun e he => delimits_entry (h.entries e he)
  have hmade := hentries.map fun entries =>
    ({ source, start, stop, properties := .ofList entries } : Descriptor)
  rw [Properties.ofList_entries] at hmade
  rw [encode, List.append_assoc, List.append_assoc]
  exact hsource.bind ((delimits_number start).bind (hstop.bind hmade))

end Descriptor

/-! ### Bundles -/

namespace Bundle

open Descriptor (Delimits)

variable {b : Bundle}

theorem Fits.delimits_encode (h : b.Fits) : Delimits decode? b.encode b := by
  cases b with
  | single d =>
    have hkind := Descriptor.delimits_nat (w := 4) (n := 0) (by decide)
    exact hkind.bind ((Descriptor.Fits.delimits_encode h).map single)
  | container ds =>
    have hkind := Descriptor.delimits_nat (w := 4) (n := 1) (by decide)
    obtain ⟨hcount, hfits⟩ := fits_container_iff.1 h
    have hds := Descriptor.delimits_many hcount fun d hd => (hfits d hd).delimits_encode
    exact hkind.bind (hds.map container)

/-- **A bundle is read back, and never from a part of its stored form.**  The stored form is a row
    of numbers in fixed widths, least significant octet first, and the contents of texts.  What
    follows it does not count; octets cut off before its end are refused, and so is a reference to a
    file of such octets.  All counts have to fit in eight octets, as those of any value in the
    memory of a machine do. -/
theorem encode_delimits_itself (h : b.Fits) :
    b.encode = b.fields.flatMap Field.octets ∧
    (∀ rest, decode (b.encode ++ rest) = .ok b) ∧
    ∀ front, front <+: b.encode → front ≠ b.encode →
      (∃ problem, decode front = .error (.serialization problem)) ∧
      ∀ {σ : Type} [Store σ] (s : σ) (extension reference : String),
        Store.read s ⟨reference⟩ = .ok front →
        ∃ problem, Resolution.descriptors extension s reference =
          .error (.descriptor reference problem) := by
  have hdelimits := h.delimits_encode
  refine ⟨b.encode_eq_fields, fun rest => ?_, fun front hfront hne => ?_⟩
  · rw [decode, hdelimits.reads rest]
  · obtain ⟨defect, hdefect⟩ := hdelimits.cut front hfront hne
    have hdecode : decode front =
        .error (.serialization s!"failed to deserialize descriptor file: {defect.message}") := by
      rw [decode, hdefect]
    exact ⟨⟨_, hdecode⟩, fun s extension reference hread =>
      ⟨_, Resolution.descriptors_eq_error hread hdecode⟩⟩

/-- A container read from its stored form with an octet behind it, and not from thirty octets of it. -/
theorem encode_delimits_itself_thirty :
    let b := container [{ source := some "data/a", stop := some 9, properties := .ofList [("k", "v")] }]
    let c := Catalog.empty.put ⟨"jobs/b.mwu"⟩ (b.encode.take 30)
    b.Fits ∧ decode (b.encode ++ [7]) = .ok b ∧ b.encode.take 30 ≠ b.encode ∧
      ∃ problem, Resolution.descriptors ".mwu" c "jobs/b.mwu" =
        .error (.descriptor "jobs/b.mwu" problem) := by
  intro b c
  have hfits : b.Fits := by
    refine fits_container_iff.2 ⟨by decide, List.forall_mem_singleton.2 ⟨?_, by decide, by decide⟩⟩
    rintro s ⟨⟩
    decide
  have hne : b.encode.take 30 ≠ b.encode := by decide +kernel
  have hread : Store.read c ⟨"jobs/b.mwu"⟩ = .ok (b.encode.take 30) :=
    Catalog.read_eq_ok_iff.2 ⟨_, Keyed.get?_put_self .., rfl⟩
  obtain ⟨-, hreads, hcut⟩ := encode_delimits_itself hfits
  exact ⟨hfits, hreads [7], hne, (hcut _ (List.take_prefix 30 _) hne).2 c ".mwu" "jobs/b.mwu" hread⟩

end Bundle

end Apportion
