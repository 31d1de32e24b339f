/-
  Writing TOML documents that consist of sections: tables under a header of
  their own, which bind keys to plain values on one line each.

  * `Literal` are the values that can be bound, `Literal.value` says what a
    reader finds.
  * `Literal.write`, `Section.write`, `writeSections`: the text of a value, of
    a section and of a document.  An integer beyond the range of the format has
    no text.
-/
import Apportion.Decimal.Shortest
import Apportion.Toml.Quoted

namespace Apportion

namespace Toml

/-- Why a document has no text. -/
inductive Unwritable where
  /-- A number exceeds the largest integer of the format. -/
  | outOfRange
  deriving DecidableEq, Repr

/-- The wording of the reason. -/
def Unwritable.message : Unwritable → String
  | .outOfRange => "out-of-range value for u64 type"

/-- The largest integer of the format. -/
def maxInteger : Nat := 2 ^ 63 - 1

/-- The values that sections bind. -/
inductive Literal where
  | text (s : String)
  | natural (n : Nat)
  | real (x : Float)
  | texts (ss : List String)

namespace Literal

/-- The value that a literal writes. -/
def value : Literal → Value
  | text s => .text s
  | natural n => .integer n
  | real x => .real x
  | texts ss => .array (ss.map .text)

/-- A real number, in the fewest digits that read back and always with a fraction. -/
def writeReal (x : Float) : List Char :=
  let digits := (Decimal.plain x).toList
  if x.isNaN then "nan".toList
  else if x.isInf || digits.contains '.' then digits
  else digits ++ ".0".toList

/-- The text of a literal. -/
def write : Literal → Except Unwritable (List Char)
  | text s => .ok (Quoted.write s)
  | natural n => if n ≤ maxInteger then .ok (toString n).toList else .error .outOfRange
  | real x => .ok (writeReal x)
  | texts ss => .ok ('[' :: ", ".toList.intercalate (ss.map Quoted.write) ++ [']'])

end Literal

/-- A table under a header of its own. -/
structure Section where
  name : String
  bindings : List (String × Literal)

namespace Section

/-- The line that binds a key. -/
def writeBinding (key : String) (v : Literal) : Except Unwritable (List Char) := do
  let v ← v.write
  return key.toList ++ " = ".toList ++ v ++ ['\n']

/-- The lines of a section. -/
def write (s : Section) : Except Unwritable (List Char) := do
  let lines ← s.bindings.mapM fun (key, v) => writeBinding key v
  return '[' :: s.name.toList ++ "]\n".toList ++ lines.flatten

/-- The entry of a section in the document it is part of. -/
def entry (s : Section) : String × Value :=
  (s.name, .table .header (s.bindings.map fun (key, v) => (key, v.value)))

end Section

/-- The text of a document, with an empty line between sections. -/
def writeSections (sections : List Section) : Except Unwritable String := do
  let texts ← sections.mapM Section.write
  return String.ofList (['\n'].intercalate texts)

end Toml

end Apportion
