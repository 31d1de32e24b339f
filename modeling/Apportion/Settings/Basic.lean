/-
  Settings: where files are kept and how they are placed, how work is planned,
  and which hosts are named.

  * `Settings.validate` refuses settings nothing sensible can be done with and
    names the first unfit value.
-/
import Apportion.Decimal.Shortest
import Apportion.Failure

namespace Apportion

/-- Where and how files are kept. -/
structure StorageSettings where
  /-- The directory below which files are kept. -/
  basePath : Path := ⟨"./data"⟩
  /-- The number of bytes read or written at once. -/
  bufferSize : UInt64 := 64 * 1024
  /-- The number of bytes of a block. -/
  blockSize : UInt64 := 128 * 1024 * 1024
  /-- The hosts that hold every block. -/
  hosts : List String := ["localhost"]

/-- How work is planned. -/
structure PlanningSettings where
  /-- The largest number of splits; one for each reference if there is none. -/
  maxWorkers : Option UInt32 := none
  /-- What the name of a container of descriptors ends in. -/
  containerExtension : String := ".mwu"
  /-- The directory that splits are written to. -/
  outputDirectory : Path := ⟨"./splits"⟩

/-- Which hosts are named. -/
structure LocalitySettings where
  /-- The least number of hosts named, if that many hold data. -/
  leastHosts : UInt64 := 3
  /-- The share of the data from which on a host is always named. -/
  threshold : Float := 0.75

/-- All settings. -/
structure Settings where
  storage : StorageSettings := {}
  planning : PlanningSettings := {}
  locality : LocalitySettings := {}

namespace Settings

/-- The wording for an unfit value. -/
def unfit (problem : String) : Except Failure Unit := .error (.settings problem none)

/-- A share of the whole: above zero and at most one. -/
def isShare (x : Float) : Bool := 0.0 < x && x ≤ 1.0

/-- Refuses unfit settings. -/
def validate (s : Settings) : Except Failure Unit :=
  if s.storage.bufferSize = 0 then unfit "storage.buffer_size must be greater than 0"
  else if s.storage.blockSize = 0 then unfit "storage.block_size must be greater than 0"
  else if s.storage.hosts = [] then unfit "storage.hosts must not be empty"
  else if s.planning.maxWorkers = some 0 then
    unfit "planner.max_workers must be greater than 0 when set"
  else if s.planning.containerExtension = "" then
    unfit "planner.container_extension must not be empty"
  else if !isShare s.locality.threshold then
    unfit ("locality.locality_threshold must be in (0, 1], got "
      ++ Decimal.plain s.locality.threshold)
  else .ok ()

end Settings

end Apportion
