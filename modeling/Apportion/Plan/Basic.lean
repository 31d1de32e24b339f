/-
  Plans: references grouped into splits, each with the hosts close to its data.

  * `Plan.splits` plans references, `Plan.ofInputs` what inputs stand for.
  * `Split.save` and `Split.load` keep a split in a store.
-/
import Apportion.Discovery
import Apportion.Locality
import Apportion.Plan.Grouping
import Apportion.Resolution
import Apportion.Split.Codec

namespace Apportion

/-- What leads from a reference to its descriptors. -/
abbrev Resolver := String → Except Failure (List Descriptor)

namespace Plan

variable {σ : Type} [Store σ]

/-- The hosts close to the data of one reference. -/
def hostsFor (settings : LocalitySettings) (resolver : Resolver) (s : σ) (reference : String) :
    Except Failure (List String) := do
  let descriptors ← resolver reference
  Locality.preferredHosts settings s descriptors

/-- At most `bound` splits of the references, in order; a split prefers the hosts of its own
    references. -/
def splits (settings : LocalitySettings) (resolver : Resolver) (s : σ) (references : List String)
    (bound : Option UInt32) : Except Failure (List Split) :=
  if references.isEmpty then .error .noInput
  else do
    let hostLists ← references.mapM (hostsFor settings resolver s)
    let size := groupSize references.length bound
    return List.zipWith (fun paths hosts => Split.of paths hosts.flatten)
      (groups size references) (groups size hostLists)

/-- Splits of the references that inputs stand for. -/
def ofInputs (settings : LocalitySettings) (resolver : Resolver) (s : σ) (inputs : List String)
    (bound : Option UInt32) : Except Failure (List Split) := do
  let references ← Discovery.references s inputs
  splits settings resolver s references bound

end Plan

namespace Split

variable {σ : Type} [Store σ]

/-- Writes a split; one without an encoding leaves the store as it is. -/
def save (split : Split) (s : σ) (path : Path) : Except Failure Unit × σ :=
  match split.encode with
  | .error failure => (.error failure, s)
  | .ok content => Store.save s path content

/-- Reads a split. -/
def load (s : σ) (path : Path) : Except Failure Split := do
  let content ← Store.read s path
  decode content

end Split

end Apportion
