/-
  Settings as a TOML document with a section for each group.

  * `Settings.ofEntries?` takes settings from the bindings of a document.  What
    is missing keeps its default and what is unknown does not count.  A section
    may also be an array of its values in their order.
  * `Settings.parse` reads a document, `Settings.write` writes one.
  * `Settings.load` reads the document in a file and refuses unfit settings.
-/
import Apportion.Disk.Contents
import Apportion.Settings.Basic
import Apportion.Text.Utf8
import Apportion.Toml.Document
import Apportion.Toml.Writing

namespace Apportion

namespace Settings

/-! ## Values of settings -/

/-- A text. -/
def text? : Toml.Value → Option String
  | .text s => some s
  | _ => none

/-- A list of texts. -/
def texts? : Toml.Value → Option (List String)
  | .array items => items.mapM text?
  | _ => none

/-- A number from zero up to a limit. -/
def natural? (limit : Nat) : Toml.Value → Option Nat
  | .integer n => if 0 ≤ n ∧ n ≤ limit then some n.toNat else none
  | _ => none

/-- A real number, which may be written as an integer. -/
def real? : Toml.Value → Option Float
  | .real x => some x
  | .integer n => some (Decimal.ofInt n)
  | _ => none

/-- A path. -/
def path? (v : Toml.Value) : Option Path := (text? v).map Path.mk

/-- A 64-bit number. -/
def quantity? (v : Toml.Value) : Option UInt64 := (natural? (2 ^ 64 - 1) v).map UInt64.ofNat

/-- A number of workers. -/
def workers? (v : Toml.Value) : Option UInt32 := (natural? (2 ^ 32 - 1) v).map UInt32.ofNat

/-! ## Sections -/

/-- The values of a section, by their position and their name. -/
abbrev Fields := (position : Nat) → (name : String) → Option Toml.Value

/-- The values that a section's entry holds: those under names in a table, those at positions in
    an array and none in a moment. -/
def fields? : Option Toml.Value → Option Fields
  | none | some .moment => some fun _ _ => none
  | some (.table _ entries) => some fun _ name => entries.lookup name
  | some (.array items) => some fun position _ => items[position]?
  | some (.tables earlier last) =>
    some fun position _ => (earlier ++ [.table .header last])[position]?
  | some _ => none

/-- The value of a field, or its default if the field is missing. -/
def orDefault {α : Type} (default : α) (read? : Toml.Value → Option α) :
    Option Toml.Value → Option α
  | none => some default
  | some v => read? v

/-- The settings of storage. -/
def storage? (fields : Fields) : Option StorageSettings := do
  let default : StorageSettings := {}
  return {
    basePath := ← orDefault default.basePath path? (fields 0 "base_path")
    bufferSize := ← orDefault default.bufferSize quantity? (fields 1 "buffer_size")
    blockSize := ← orDefault default.blockSize quantity? (fields 2 "block_size")
    hosts := ← orDefault default.hosts texts? (fields 3 "hosts") }

/-- The settings of planning. -/
def planning? (fields : Fields) : Option PlanningSettings := do
  let default : PlanningSettings := {}
  return {
    maxWorkers := ← orDefault default.maxWorkers (fun v => (workers? v).map some)
      (fields 0 "max_workers")
    containerExtension :=
      ← orDefault default.containerExtension text? (fields 1 "container_extension")
    outputDirectory := ← orDefault default.outputDirectory path? (fields 2 "output_dir") }

/-- The settings of locality. -/
def locality? (fields : Fields) : Option LocalitySettings := do
  let default : LocalitySettings := {}
  return {
    leastHosts := ← orDefault default.leastHosts quantity? (fields 0 "min_location_names")
    threshold := ← orDefault default.threshold real? (fields 1 "locality_threshold") }

/-- The settings in a document. -/
def ofEntries? (entries : Toml.Entries) : Option Settings := do
  return {
    storage := ← storage? (← fields? (entries.lookup "storage"))
    planning := ← planning? (← fields? (entries.lookup "planner"))
    locality := ← locality? (← fields? (entries.lookup "locality")) }

/-! ## Reading -/

/-- The wording for a text that is no document of settings. -/
def malformed : Failure :=
  .settings "failed to parse TOML config" (some "not a TOML document of settings")

/-- Reads settings from the text of a document. -/
def parse (text : String) : Except Failure Settings :=
  match Toml.parse? text >>= ofEntries? with
  | some s => .ok s
  | none => .error malformed

/-- The text of a file of settings. -/
def readText (disk : Disk) (path : Path) : Except Failure String :=
  let problem := "failed to read config file"
  match disk.read path with
  | .error error => .error (.ofSystem path problem error)
  | .ok content =>
    match Utf8.decode content with
    | .ok text => .ok text
    | .error _ => .error (.storage path problem (some "stream did not contain valid UTF-8"))

/-- Reads the settings in a file. -/
def load (disk : Disk) (path : Path) : Except Failure Settings := do
  let s ← parse (← readText disk path)
  s.validate
  return s

/-! ## Writing -/

/-- The section of storage. -/
def storageSection (s : StorageSettings) : Toml.Section where
  name := "storage"
  bindings := [
    ("base_path", .text s.basePath.text),
    ("buffer_size", .natural s.bufferSize.toNat),
    ("block_size", .natural s.blockSize.toNat),
    ("hosts", .texts s.hosts)]

/-- The section of planning. -/
def planningSection (s : PlanningSettings) : Toml.Section where
  name := "planner"
  bindings := (s.maxWorkers.toList.map fun n => ("max_workers", .natural n.toNat)) ++ [
    ("container_extension", .text s.containerExtension),
    ("output_dir", .text s.outputDirectory.text)]

/-- The section of locality. -/
def localitySection (s : LocalitySettings) : Toml.Section where
  name := "locality"
  bindings := [
    ("min_location_names", .natural s.leastHosts.toNat),
    ("locality_threshold", .real s.threshold)]

/-- The sections of a document. -/
def sections (s : Settings) : List Toml.Section :=
  [storageSection s.storage, planningSection s.planning, localitySection s.locality]

/-- The text of a document. -/
def write (s : Settings) : Except Toml.Unwritable String := Toml.writeSections s.sections

end Settings

end Apportion
