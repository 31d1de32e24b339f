/-
  Environments: variables with texts, and the settings they take the place of.

  * `Settings.under` gives the settings with what an environment says.  A number
    that cannot be read and a list without a host leave a setting as it is.
-/
import Apportion.Decimal.Reading
import Apportion.Settings.Basic
import Apportion.Text.Blank

namespace Apportion

/-- The texts of the variables that are set. -/
abbrev Environment := (name : String) → Option String

namespace Environment

/-- The variables that take the place of settings. -/
def names : List String :=
  ["WSP_STORAGE_BASE_PATH", "WSP_STORAGE_BUFFER_SIZE", "WSP_STORAGE_BLOCK_SIZE",
    "WSP_STORAGE_HOSTS", "WSP_PLANNER_MAX_WORKERS", "WSP_PLANNER_CONTAINER_EXTENSION",
    "WSP_PLANNER_OUTPUT_DIR", "WSP_LOCALITY_MIN_LOCATION_NAMES", "WSP_LOCALITY_THRESHOLD"]

/-- The texts of a list of variables. -/
def ofList (bindings : List (String × String)) : Environment := fun name => bindings.lookup name

/-- What is read from a variable, or `default` if nothing is. -/
def get {α : Type} (e : Environment) (name : String) (read? : List Char → Option α) (default : α) :
    α :=
  ((e name).bind fun text => read? text.toList).getD default

end Environment

namespace Settings

/-- Any text. -/
def anyText? (cs : List Char) : Option String := some (String.ofList cs)

/-- Any path. -/
def anyPath? (cs : List Char) : Option Path := some ⟨String.ofList cs⟩

/-- The hosts in a list with commas between them, if there are any; blanks around them do not
    count. -/
def hostList? (cs : List Char) : Option (List String) :=
  match ((cs.splitOn ',').map Text.trim).filter (· ≠ []) with
  | [] => none
  | hosts => some (hosts.map String.ofList)

/-- A number of workers. -/
def workerCount? (cs : List Char) : Option (Option UInt32) :=
  (Decimal.unsigned? (2 ^ 32 - 1) cs).map fun n => some (UInt32.ofNat n)

/-- The settings with what an environment says. -/
def under (e : Environment) (s : Settings) : Settings where
  storage := {
    basePath := e.get "WSP_STORAGE_BASE_PATH" anyPath? s.storage.basePath
    bufferSize := e.get "WSP_STORAGE_BUFFER_SIZE" Decimal.quantity? s.storage.bufferSize
    blockSize := e.get "WSP_STORAGE_BLOCK_SIZE" Decimal.quantity? s.storage.blockSize
    hosts := e.get "WSP_STORAGE_HOSTS" hostList? s.storage.hosts }
  planning := {
    maxWorkers := e.get "WSP_PLANNER_MAX_WORKERS" workerCount? s.planning.maxWorkers
    containerExtension :=
      e.get "WSP_PLANNER_CONTAINER_EXTENSION" anyText? s.planning.containerExtension
    outputDirectory := e.get "WSP_PLANNER_OUTPUT_DIR" anyPath? s.planning.outputDirectory }
  locality := {
    leastHosts := e.get "WSP_LOCALITY_MIN_LOCATION_NAMES" Decimal.quantity? s.locality.leastHosts
    threshold := e.get "WSP_LOCALITY_THRESHOLD" Decimal.double? s.locality.threshold }

end Settings

end Apportion
