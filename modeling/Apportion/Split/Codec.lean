/-
  The stored form of a split: the list of its paths followed by the list of its
  hosts.  A list is the count of its strings in four octets, signed, and then
  each string as the number of its UTF-8 octets in two octets and the octets
  themselves; all numbers have their most significant octet first.

  * `encode` refuses a list of more than `2 ^ 31 - 1` strings and a string of
    more than 65535 octets.
  * `decode` reads a stored split or tells, as a `Defect`, the first thing wrong
    with the octets.
-/
import Apportion.Failure
import Apportion.Split.Basic
import Apportion.Text.Utf8

namespace Apportion

namespace Split

/-! ## Writing -/

/-- The two lists of a stored split. -/
inductive Section where
  | paths
  | hosts
  deriving DecidableEq, Repr

/-- What one string of a list is. -/
def Section.noun : Section → String
  | .paths => "path"
  | .hosts => "host"

/-- The largest number of strings in a list. -/
def maxCount : Nat := 2 ^ 31 - 1

/-- The largest number of octets of a string. -/
def maxLength : Nat := 2 ^ 16 - 1

/-- A string with its length in front. -/
def encodeString (kind : Section) (s : String) : Except Failure Octets :=
  let size := s.utf8ByteSize
  if size ≤ maxLength then
    .ok (Octets.bigEndian 2 size ++ Utf8.encode s)
  else
    .error (.serialization
      s!"{kind.noun} is {size} bytes, longer than the {maxLength} byte limit")

/-- A list of strings with its count in front. -/
def encodeList (kind : Section) (strings : List String) : Except Failure Octets :=
  if strings.length ≤ maxCount then do
    let items ← strings.mapM (encodeString kind)
    return Octets.bigEndian 4 strings.length ++ items.flatten
  else
    .error (.serialization s!"too many {kind.noun}s: {strings.length}")

/-- The stored form of a split. -/
def encode (s : Split) : Except Failure Octets := do
  let paths ← encodeList .paths s.paths
  let hosts ← encodeList .hosts s.hosts
  return paths ++ hosts

/-! ## Reading -/

/-- What is wrong with octets that are no stored split. -/
inductive Defect where
  /-- A list ends before its count. -/
  | noCount (kind : Section)
  /-- A list has a count below zero. -/
  | negativeCount (kind : Section) (count : Int)
  /-- A list ends before the length of a string. -/
  | noLength (kind : Section) (index : Nat)
  /-- A string is longer than what is left. -/
  | cutShort (kind : Section) (index length left : Nat)
  /-- A string is not UTF-8. -/
  | notText (kind : Section) (index : Nat) (fault : Utf8.Fault)
  /-- Octets follow the two lists. -/
  | trailing (count : Nat)
  deriving DecidableEq, Repr

/-- The wording of a defect. -/
def Defect.message : Defect → String
  | .noCount kind => s!"truncated before {kind.noun} count"
  | .negativeCount kind count => s!"negative {kind.noun} count {count}"
  | .noLength kind index => s!"truncated before {kind.noun} {index}"
  | .cutShort kind index length left =>
    s!"{kind.noun} {index} needs {length} bytes, {left} left"
  | .notText kind index fault => s!"{kind.noun} {index} is not valid UTF-8: {fault.message}"
  | .trailing count => s!"{count} trailing bytes after host list"

/-- Reads the string at `index` of a list and leaves what follows it. -/
def decodeString (kind : Section) (index : Nat) (o : Octets) : Except Defect (String × Octets) :=
  match Octets.splitAt? 2 o with
  | none => .error (.noLength kind index)
  | some (lengthField, o) =>
    let length := Octets.ofBigEndian lengthField
    match Octets.splitAt? length o with
    | none => .error (.cutShort kind index length o.length)
    | some (content, rest) =>
      match Utf8.decode content with
      | .error fault => .error (.notText kind index fault)
      | .ok s => .ok (s, rest)

/-- Reads `count` strings, of which the first stands at `index` of the list. -/
def decodeStrings (kind : Section) :
    (count index : Nat) → Octets → Except Defect (List String × Octets)
  | 0, _, o => .ok ([], o)
  | count + 1, index, o => do
    let (s, o) ← decodeString kind index o
    let (strings, o) ← decodeStrings kind count (index + 1) o
    return (s :: strings, o)

/-- Reads a list of strings and leaves what follows it. -/
def decodeList (kind : Section) (o : Octets) : Except Defect (List String × Octets) :=
  match Octets.splitAt? 4 o with
  | none => .error (.noCount kind)
  | some (countField, o) =>
    let count := Octets.ofBigEndian countField
    if count ≤ maxCount then decodeStrings kind count 0 o
    else .error (.negativeCount kind ((count : Int) - 2 ^ 32))

/-- The split that octets store, or what is wrong with them. -/
def decode? (o : Octets) : Except Defect Split := do
  let (paths, o) ← decodeList .paths o
  let (hosts, o) ← decodeList .hosts o
  if o.isEmpty then return Split.of paths hosts
  else throw (.trailing o.length)

/-- The split that octets store; octets that store none are corrupt. -/
def decode (o : Octets) : Except Failure Split :=
  match decode? o with
  | .ok s => .ok s
  | .error defect => .error (.corruptSplit defect.message)

end Split

end Apportion
