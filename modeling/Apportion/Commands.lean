/-
  Commands: what can be done with a disk from a command line.

  * `plan` plans inputs and writes the splits into a directory.
  * `inspect` prints a split.
  * `describe` writes a descriptor file.
  Each answers with the disk it leaves, also when it fails.
-/
import Apportion.Cursor
import Apportion.Decimal.Fixed
import Apportion.Descriptor.Notation
import Apportion.Disk.Store
import Apportion.Plan.Basic

namespace Apportion

namespace Commands

/-! ## Planning -/

/-- The name of the file of a split. -/
def splitName (index : Nat) : String := "split-" ++ Decimal.padded 5 index ++ ".bin"

/-- Where the split with the given index goes. -/
def splitPath (output : Path) (index : Nat) : Path := output.join ⟨splitName index⟩

/-- Writes splits, of which the first has the given index, up to the first that cannot be
    written. -/
def saveSplits (output : Path) (s : DiskStore) :
    (index : Nat) → List Split → Except Failure (List Path) × DiskStore
  | _, [] => (.ok [], s)
  | index, split :: splits =>
    let path := splitPath output index
    match split.save s path with
    | (.error failure, s) => (.error failure, s)
    | (.ok (), s) =>
      match saveSplits output s (index + 1) splits with
      | (.error failure, s) => (.error failure, s)
      | (.ok paths, s) => (.ok (path :: paths), s)

/-- Plans with what a store holds. -/
def splitsOf (settings : Settings) (s : DiskStore) (inputs : List String) (bound : Option UInt32) :
    Except Failure (List Split) :=
  Plan.ofInputs settings.locality (Resolution.descriptors settings.planning.containerExtension s) s
    inputs bound

/-- Plans inputs and writes the splits into a directory; the paths written. -/
def planIn (settings : Settings) (inputs : List String) (bound : Option UInt32) (output : Path)
    (s : DiskStore) : Except Failure (List Path) × DiskStore :=
  match splitsOf settings s inputs bound with
  | .error failure => (.error failure, s)
  | .ok splits =>
    match s.makeDirectories output with
    | (.error failure, s) => (.error failure, s)
    | (.ok (), s) => saveSplits output s 0 splits

/-- Plans inputs and writes the splits into a directory; the paths written. -/
def plan (settings : Settings) (inputs : List String) (bound : Option UInt32) (output : Path)
    (disk : Disk) : Except Failure (List Path) × Disk :=
  match DiskStore.create settings.storage disk with
  | (.error failure, disk) => (.error failure, disk)
  | (.ok s, _) =>
    let (result, s) := planIn settings inputs bound output s
    (result, s.disk)

/-! ## Inspecting -/

/-- The line for the reference a cursor stands on. -/
def line (c : Cursor) : String :=
  match c.current with
  | none => ""
  | some (index, reference) =>
    toString index ++ "\t" ++ reference ++ "\t" ++ Decimal.twoPlaces c.progress ++ "\n"

/-- The lines for the references a cursor has in front of it, at most `fuel` of them. -/
def linesWithin : (fuel : Nat) → Cursor → List String
  | 0, _ => []
  | fuel + 1, c =>
    match c.advance with
    | (true, c) => line c :: linesWithin fuel c
    | (false, _) => []

/-- The text of a split: its hosts, and a line for each reference. -/
def report (split : Split) : String :=
  "hosts: " ++ ",".intercalate split.hosts ++ "\n" ++
    String.join (linesWithin split.paths.length (.start split))

/-- Prints a split. -/
def inspect (settings : Settings) (path : Path) (disk : Disk) : Except Failure String × Disk :=
  match DiskStore.create settings.storage disk with
  | (.error failure, disk) => (.error failure, disk)
  | (.ok s, disk) => ((Split.load s path).map report, disk)

/-! ## Describing -/

/-- The bundle that goes under a name: a container of any number of descriptors, or a single
    one. -/
def bundleFor (extension output : String) (ds : List Descriptor) : Except Failure Bundle :=
  if Resolution.isContainerName extension output then .ok (.container ds)
  else
    match ds with
    | [d] => .ok (.single d)
    | ds => .error (.descriptor output
        (toString ds.length ++ " sources given; use the '" ++ extension ++
          "' extension for a container"))

/-- Writes a file that describes sources. -/
def describe (settings : Settings) (output : String) (sources : List String) (disk : Disk) :
    Except Failure Unit × Disk :=
  match sources.mapM Descriptor.parse >>= bundleFor settings.planning.containerExtension output with
  | .error failure => (.error failure, disk)
  | .ok bundle =>
    match DiskStore.create settings.storage disk with
    | (.error failure, disk) => (.error failure, disk)
    | (.ok s, _) =>
      let (result, s) := bundle.save s ⟨output⟩
      (result, s.disk)

end Commands

end Apportion
