/-
  The stored form of descriptors.  Numbers have a fixed width and their least
  significant octet first: four octets for the kind of a bundle (0 single, 1
  container), eight for every other number.  What may be absent has an octet 0
  or 1 in front.  A text, a list and a map have their count in front; a map
  lists its entries by rising key, each as its key and its value.

  * `Bundle.encode` writes, `Bundle.decode?` reads and leaves what follows, and
    `Bundle.decode` takes the bundle at the front of a file.
  * `Descriptor.Defect`: what is wrong with octets that start with no bundle.
-/
import Apportion.Descriptor.Basic
import Apportion.Failure
import Apportion.Text.Utf8

namespace Apportion

namespace Descriptor

/-! ## Writing -/

/-- A number in eight octets. -/
def encodeNumber (n : UInt64) : Octets := Octets.littleEndian 8 n.toNat

/-- A count in eight octets. -/
def encodeCount (n : Nat) : Octets := Octets.littleEndian 8 n

/-- A text with the number of its octets in front. -/
def encodeText (s : String) : Octets := encodeCount s.utf8ByteSize ++ Utf8.encode s

/-- What may be absent, with the octet that tells whether it is. -/
def encodeOptional {α : Type} (encode : α → Octets) : Option α → Octets
  | none => [0]
  | some a => 1 :: encode a

/-- A list with its count in front. -/
def encodeMany {α : Type} (encode : α → Octets) (items : List α) : Octets :=
  encodeCount items.length ++ items.flatMap encode

/-- An entry of a map: key and value. -/
def encodeEntry (e : String × String) : Octets := encodeText e.1 ++ encodeText e.2

/-- Source, range and properties. -/
def encode (d : Descriptor) : Octets :=
  encodeOptional encodeText d.source ++ encodeNumber d.start ++
    encodeOptional encodeNumber d.stop ++ encodeMany encodeEntry d.properties.entries

/-! ## Reading -/

/-- What is wrong with octets that start with no bundle. -/
inductive Defect where
  /-- A number, a tag or a count is cut short. -/
  | endOfFile
  /-- The content of a text is cut short. -/
  | cutText
  /-- A kind of bundle that there is not. -/
  | unknownKind (n : Nat)
  /-- Neither absent nor present. -/
  | unknownTag (n : Nat)
  /-- A text is not UTF-8. -/
  | notText (fault : Utf8.Fault)
  deriving DecidableEq, Repr

/-- The wording of a defect. -/
def Defect.message : Defect → String
  | .endOfFile => "io error: unexpected end of file"
  | .cutText => "io error: "
  | .unknownKind n =>
    "invalid value: integer `" ++ toString n ++ "`, expected variant index 0 <= i < 2"
  | .unknownTag n => s!"tag for enum is not valid, found {n}"
  | .notText fault => s!"string is not valid utf8: {fault.message}"

/-- Reads a value off the front of octets and leaves the rest. -/
abbrev Decoder (α : Type) := Octets → Except Defect (α × Octets)

/-- Reads a number of `width` octets. -/
def decodeNat (width : Nat) : Decoder Nat := fun o =>
  match Octets.splitAt? width o with
  | none => .error .endOfFile
  | some (field, rest) => .ok (Octets.ofLittleEndian field, rest)

/-- Reads a number of eight octets. -/
def decodeNumber : Decoder UInt64 := fun o => do
  let (n, o) ← decodeNat 8 o
  return (UInt64.ofNat n, o)

/-- Reads a text. -/
def decodeText : Decoder String := fun o => do
  let (length, o) ← decodeNat 8 o
  match Octets.splitAt? length o with
  | none => throw .cutText
  | some (content, rest) =>
    match Utf8.decode content with
    | .error fault => throw (.notText fault)
    | .ok s => return (s, rest)

/-- Reads what may be absent. -/
def decodeOptional {α : Type} (decode : Decoder α) : Decoder (Option α) := fun o => do
  match ← decodeNat 1 o with
  | (0, o) => return (none, o)
  | (1, o) =>
    let (a, o) ← decode o
    return (some a, o)
  | (tag, _) => throw (.unknownTag tag)

/-- Reads a counted number of values. -/
def decodeRepeated {α : Type} (decode : Decoder α) : (count : Nat) → Decoder (List α)
  | 0, o => .ok ([], o)
  | count + 1, o => do
    let (a, o) ← decode o
    let (as, o) ← decodeRepeated decode count o
    return (a :: as, o)

/-- Reads a list. -/
def decodeMany {α : Type} (decode : Decoder α) : Decoder (List α) := fun o => do
  let (count, o) ← decodeNat 8 o
  decodeRepeated decode count o

/-- Reads an entry of a map. -/
def decodeEntry : Decoder (String × String) := fun o => do
  let (key, o) ← decodeText o
  let (value, o) ← decodeText o
  return ((key, value), o)

/-- Reads a descriptor; of entries with one key the last one counts. -/
def decode : Decoder Descriptor := fun o => do
  let (source, o) ← decodeOptional decodeText o
  let (start, o) ← decodeNumber o
  let (stop, o) ← decodeOptional decodeNumber o
  let (entries, o) ← decodeMany decodeEntry o
  return ({ source, start, stop, properties := .ofList entries }, o)

end Descriptor

namespace Bundle

open Descriptor (Decoder)

/-- The stored form of a bundle. -/
def encode : Bundle → Octets
  | single d => Octets.littleEndian 4 0 ++ d.encode
  | container ds => Octets.littleEndian 4 1 ++ Descriptor.encodeMany Descriptor.encode ds

/-- Reads a bundle. -/
def decode? : Decoder Bundle := fun o => do
  match ← Descriptor.decodeNat 4 o with
  | (0, o) =>
    let (d, o) ← Descriptor.decode o
    return (single d, o)
  | (1, o) =>
    let (ds, o) ← Descriptor.decodeMany Descriptor.decode o
    return (container ds, o)
  | (kind, _) => throw (.unknownKind kind)

/-- The bundle at the front of a descriptor file; what follows it does not count. -/
def decode (o : Octets) : Except Failure Bundle :=
  match decode? o with
  | .ok (bundle, _) => .ok bundle
  | .error defect =>
    .error (.serialization s!"failed to deserialize descriptor file: {defect.message}")

end Bundle

end Apportion
