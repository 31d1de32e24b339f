/-
  The notation of sources on a command line: `PATH`, `PATH:START-END` or
  `PATH:START-`.  The last colon ends the path and the first dash after it ends
  the start.

  * `Descriptor.parse` reads the notation.
-/
import Apportion.Decimal.Numeral
import Apportion.Descriptor.Basic
import Apportion.Failure
import Apportion.Text.Cut

namespace Apportion

namespace Descriptor

/-- The end of a range: a number, or nothing for the end of the file. -/
def parseStop? (cs : List Char) : Option (Option UInt64) :=
  if cs = [] then some none else (Decimal.quantity? cs).map some

/-- The start and the end of a range. -/
def parseRange? (cs : List Char) : Option (UInt64 × Option UInt64) := do
  let (start, stop) ← Text.cutFirst? '-' cs
  return (← Decimal.quantity? start, ← parseStop? stop)

/-- Whether a range ends before it starts. -/
def isReversed (start : UInt64) : Option UInt64 → Bool
  | some stop => stop < start
  | none => false

/-- The descriptor that a notation stands for. -/
def parse (source : String) : Except Failure Descriptor :=
  match Text.cutLast? ':' source.toList with
  | none => .ok { source := some source }
  | some (path, range) =>
    match parseRange? range with
    | none => .error (.descriptor source "expected PATH:START-END or PATH:START-")
    | some (start, stop) =>
      if isReversed start stop then
        .error (.descriptor source "range end is before range start")
      else .ok { source := some (String.ofList path), start, stop }

end Descriptor

end Apportion
