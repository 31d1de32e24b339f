/-
  The stored form of a bundle, field by field.

  * `Field`: a number of a fixed width, or the content of a text.
  * `Descriptor.Listing`, `Bundle.Listing`: the entries of a map as they are listed, in any order and
    with keys that come again; `of` lists them as they are stored.
  * `fields` and `Fits`: the fields of a listing, and that its counts fit in them; those of a bundle are
    those of its listing.
  * `Bundle.encode_eq_fields`: the stored form is the octets of the fields.
-/
import Apportion.Descriptor.Codec
import Apportion.Proofs.Octets
import Mathlib.Data.List.Basic

namespace Apportion

/-! ## Fields -/

/-- A part of a stored form. -/
inductive Field where
  /-- A number in so many octets, of which the one at index `i` counts `256 ^ i`. -/
  | number (width n : Nat)
  /-- The octets of a text. -/
  | content (s : String)

namespace Field

/-- The octets of a field. -/
def octets : Field → Octets
  | number width n => (List.range width).map fun i => UInt8.ofNat (n / 256 ^ i)
  | content s => Utf8.encode s

/-- A text has its size in front. -/
def ofText (s : String) : List Field := [number 8 s.utf8ByteSize, content s]

/-- What may be absent has a tag in front, zero or one. -/
def ofOptional {α : Type} (fields : α → List Field) : Option α → List Field
  | none => [number 1 0]
  | some a => number 1 1 :: fields a

/-- A list has its count in front. -/
def ofMany {α : Type} (fields : α → List Field) (items : List α) : List Field :=
  number 8 items.length :: items.flatMap fields

end Field

/-! ## Listings -/

namespace Descriptor

/-- What octets say of a descriptor. -/
structure Listing where
  source : Option String
  start : UInt64
  stop : Option UInt64
  /-- The entries of the map, as they are listed. -/
  entries : List (String × String)

namespace Listing

/-- How a descriptor is listed when it is stored. -/
def of (d : Descriptor) : Listing := ⟨d.source, d.start, d.stop, d.properties.entries⟩

/-- Source, range and entries. -/
def fields (l : Listing) : List Field :=
  Field.ofOptional Field.ofText l.source ++ [.number 8 l.start.toNat] ++
    Field.ofOptional (fun n => [.number 8 n.toNat]) l.stop ++
      Field.ofMany (fun e => Field.ofText e.1 ++ Field.ofText e.2) l.entries

/-- All counts fit in their eight octets. -/
structure Fits (l : Listing) : Prop where
  source : ∀ s ∈ l.source, s.utf8ByteSize < 2 ^ 64
  count : l.entries.length < 2 ^ 64
  entries : ∀ e ∈ l.entries, e.1.utf8ByteSize < 2 ^ 64 ∧ e.2.utf8ByteSize < 2 ^ 64

/-- The octets of a listing, part by part. -/
def encode (l : Listing) : Octets :=
  encodeOptional encodeText l.source ++ encodeNumber l.start ++
    encodeOptional encodeNumber l.stop ++ encodeMany encodeEntry l.entries

end Listing

/-- All counts of the stored form fit in their eight octets. -/
def Fits (d : Descriptor) : Prop := (Listing.of d).Fits

end Descriptor

namespace Bundle

/-- What octets say of a bundle. -/
inductive Listing where
  | single (l : Descriptor.Listing)
  | container (ls : List Descriptor.Listing)

namespace Listing

/-- How a bundle is listed when it is stored. -/
def of : Bundle → Listing
  | .single d => single (.of d)
  | .container ds => container (ds.map .of)

/-- The kind, and the listing or the listings. -/
def fields : Listing → List Field
  | single l => .number 4 0 :: l.fields
  | container ls => .number 4 1 :: Field.ofMany Descriptor.Listing.fields ls

/-- All counts fit in their eight octets. -/
def Fits : Listing → Prop
  | single l => l.Fits
  | container ls => ls.length < 2 ^ 64 ∧ ∀ l ∈ ls, l.Fits

/-- The octets of a listing, part by part. -/
def encode : Listing → Octets
  | single l => Octets.littleEndian 4 0 ++ l.encode
  | container ls => Octets.littleEndian 4 1 ++ Descriptor.encodeMany Descriptor.Listing.encode ls

end Listing

/-- The fields of the stored form. -/
def fields (b : Bundle) : List Field := (Listing.of b).fields

/-- All counts of the stored form fit in their eight octets. -/
def Fits (b : Bundle) : Prop := (Listing.of b).Fits

theorem fits_container_iff {ds : List Descriptor} :
    (container ds).Fits ↔ ds.length < 2 ^ 64 ∧ ∀ d ∈ ds, d.Fits := by
  simp only [Fits, Listing.of, Listing.Fits, List.length_map, List.forall_mem_map, Descriptor.Fits]

end Bundle

/-! ## Octets of the fields -/

namespace Descriptor

theorem encodeText_eq (s : String) : encodeText s = (Field.ofText s).flatMap Field.octets := by
  simp only [encodeText, encodeCount, Octets.littleEndian_eq_map, Field.ofText, List.flatMap_cons,
    List.flatMap_nil, List.append_nil, Field.octets]

theorem encodeNumber_eq (n : UInt64) :
    encodeNumber n = [Field.number 8 n.toNat].flatMap Field.octets := by
  rw [encodeNumber, Octets.littleEndian_eq_map, List.flatMap_singleton, Field.octets]

section
variable {α : Type} {encode : α → Octets} {fields : α → List Field}
  (h : ∀ a, encode a = (fields a).flatMap Field.octets)
include h

theorem encodeOptional_eq (a? : Option α) :
    encodeOptional encode a? = (Field.ofOptional fields a?).flatMap Field.octets := by
  cases a? with
  | none => rfl
  | some a =>
    rw [encodeOptional, h, Field.ofOptional, List.flatMap_cons]
    rfl

theorem encodeMany_eq (items : List α) :
    encodeMany encode items = (Field.ofMany fields items).flatMap Field.octets := by
  have hitems : items.flatMap encode = (items.flatMap fields).flatMap Field.octets := by
    rw [List.flatMap_assoc]
    exact List.flatMap_congr fun a _ => h a
  rw [encodeMany, encodeCount, Octets.littleEndian_eq_map, hitems, Field.ofMany, List.flatMap_cons,
    Field.octets]

end

theorem encodeEntry_eq (e : String × String) :
    encodeEntry e = (Field.ofText e.1 ++ Field.ofText e.2).flatMap Field.octets := by
  rw [encodeEntry, encodeText_eq, encodeText_eq, List.flatMap_append]

theorem Listing.encode_eq_fields (l : Listing) : l.encode = l.fields.flatMap Field.octets := by
  rw [encode, fields, List.flatMap_append, List.flatMap_append, List.flatMap_append,
    encodeOptional_eq encodeText_eq, encodeOptional_eq encodeNumber_eq,
    encodeMany_eq encodeEntry_eq, encodeNumber_eq]

theorem Listing.encode_of (d : Descriptor) : (of d).encode = d.encode := rfl

end Descriptor

namespace Bundle

theorem Listing.encode_eq_fields (l : Listing) : l.encode = l.fields.flatMap Field.octets := by
  cases l with
  | single l =>
    rw [encode, fields, List.flatMap_cons, l.encode_eq_fields, Octets.littleEndian_eq_map]
    rfl
  | container ls =>
    rw [encode, fields, List.flatMap_cons,
      Descriptor.encodeMany_eq Descriptor.Listing.encode_eq_fields, Octets.littleEndian_eq_map]
    rfl

theorem Listing.encode_of (b : Bundle) : (of b).encode = b.encode := by
  cases b with
  | single d => rfl
  | container ds =>
    simp only [of, encode, Bundle.encode, Descriptor.encodeMany, List.length_map, List.flatMap_map,
      Descriptor.Listing.encode_of]

/-- **A bundle is stored as the octets of its fields.** -/
theorem encode_eq_fields (b : Bundle) : b.encode = b.fields.flatMap Field.octets := by
  rw [← Listing.encode_of, Listing.encode_eq_fields, fields]

end Bundle

end Apportion
