/-
  Locality: which hosts hold the data that descriptors are about.

  * `accumulate` credits every host with the bytes it holds of the range of each
    descriptor; descriptors without a source are passed over.
  * `preferredHosts`: the leaders of that tally.
-/
import Apportion.Descriptor.Basic
import Apportion.Settings.Basic
import Apportion.Store.Basic
import Apportion.Tally

namespace Apportion

namespace Locality

/-- A sum of byte counts that must not exceed the largest quantity. -/
def within (t : Option Tally) : Except Failure Tally :=
  match t with
  | some t => .ok t
  | none => .error .sumOverflow

/-- Credits the hosts of a block with its bytes in `[start, stop)`. -/
def creditBlock (start stop : UInt64) (t : Tally) (b : Block) : Except Failure Tally :=
  let bytes := b.overlap start stop
  if bytes = 0 then .ok t
  else b.hosts.foldlM (fun t host => within (t.add host bytes)) t

variable {σ : Type} [Store σ]

/-- Where the range of a descriptor on `source` ends. -/
def stopOf (s : σ) (source : String) (d : Descriptor) : Except Failure UInt64 :=
  match d.stop with
  | some stop => .ok stop
  | none => (Store.stat s ⟨source⟩).map Stat.size

/-- Credits the hosts with the bytes `[start, stop)` of a source. -/
def creditRange (s : σ) (source : String) (start stop : UInt64) (t : Tally) :
    Except Failure Tally :=
  if stop < start then
    .error (.descriptor source s!"range end {stop} is before range start {start}")
  else do
    let length := stop - start
    let t ← within (t.addRange length)
    if length = 0 then return t
    else
      let blocks ← Store.blocks s ⟨source⟩ start length
      blocks.foldlM (creditBlock start stop) t

/-- Credits the hosts with the bytes they hold for a descriptor. -/
def creditDescriptor (s : σ) (t : Tally) (d : Descriptor) : Except Failure Tally :=
  match d.source with
  | none => .ok t
  | some source => do
    let stop ← stopOf s source d
    creditRange s source d.start stop t

/-- The bytes each host holds for the descriptors. -/
def accumulate (s : σ) (ds : List Descriptor) : Except Failure Tally :=
  ds.foldlM (creditDescriptor s) .empty

/-- The hosts worth naming for the descriptors, the one with the most bytes first. -/
def preferredHosts (settings : LocalitySettings) (s : σ) (ds : List Descriptor) :
    Except Failure (List String) :=
  (accumulate s ds).map fun t => t.leaders settings.leastHosts.toNat settings.threshold

end Locality

end Apportion
