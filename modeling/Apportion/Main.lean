/-
  The program: it takes the part of the file system that a command line can
  reach onto a disk, runs the command line on it, and puts back what has
  changed.

  What can be reached lies below the working directory, or at an absolute path
  that the command line, the environment, the settings or a descriptor names.
-/
import Apportion.Invocation.Outcome

namespace Apportion

namespace Program

/-! ## Taking files onto a disk -/

/-- Takes a file, or a directory with all that lies below it, onto a disk.  What cannot be read is
    left out. -/
partial def take (path : String) (disk : Disk) : IO Disk := do
  try
    let here := (← IO.currentDir) / path
    if ← here.isDir then
      let mut disk := (disk.makeDirectories ⟨path⟩).2
      for e in ← here.readDir do
        disk ← take (Path.join ⟨path⟩ ⟨e.fileName⟩).text disk
      return disk
    else if ← here.pathExists then
      let content ← IO.FS.readBinFile here
      return (disk.install ⟨path⟩ content.data.toList).2
    else return disk
  catch _ => return disk

/-- Takes what absolute paths lead to, and the directories they lie in. -/
def takeAll (texts : List String) (disk : Disk) : IO Disk := do
  let mut disk := disk
  for text in texts do
    let path : Path := ⟨text⟩
    if path.isAbsolute && !disk.contains path then
      for above in (Disk.lineage path).drop 1 do
        if ← ((← IO.currentDir) / above.text).isDir then
          disk := (disk.makeDirectories above).2
      disk ← take text disk
  return disk

/-- All that is on a disk, a directory in front of what lies in it. -/
partial def contents (loc : Location) : Tree → List (Location × Tree.Kind)
  | .file content => [(loc, .file content)]
  | .directory entries =>
    (loc, .directory) :: entries.flatMap fun (name, t) => contents (name :: loc) t

/-- The sources of all descriptors on a disk. -/
def sources (disk : Disk) : List String :=
  (contents [] disk.root).flatMap fun (_, k) =>
    match k with
    | .file content =>
      match Bundle.decode content with
      | .ok bundle => bundle.descriptors.filterMap Descriptor.source
      | .error _ => []
    | .directory => []

/-- The texts behind the equals signs of arguments, and the arguments themselves. -/
def named (arguments : List String) : List String :=
  arguments ++ arguments.filterMap fun text =>
    (Text.cutFirst? '=' text.toList).map fun (_, value) => String.ofList value

/-- The disk that a command line runs on. -/
def takeFor (arguments : List String) (e : Environment) : IO Disk := do
  let here := (← IO.currentDir).toString
  let disk ← take here Disk.empty
  let disk := (disk.enter ⟨here⟩).toOption.getD disk
  let disk ← takeAll (named arguments) disk
  let settings := match Invocation.parse arguments with
    | .ok invocation => (invocation.settings e disk).toOption.getD {}
    | .error _ => {}
  let disk ← takeAll [settings.storage.basePath.text, settings.planning.outputDirectory.text] disk
  takeAll (sources disk) disk

/-! ## Putting them back -/

/-- The path of a location. -/
def spell (loc : Location) : String := "/" ++ "/".intercalate loc.reverse

/-- Puts back what is on a disk and was not before. -/
def putBack (former disk : Disk) : IO Unit := do
  for (loc, k) in contents [] disk.root do
    unless former.find? loc = some k do
      match k with
      | .directory => IO.FS.createDirAll (spell loc)
      | .file content => IO.FS.writeBinFile (spell loc) ⟨content.toArray⟩

/-- The environment of the program. -/
def environment : IO Environment := do
  let texts ← Environment.names.filterMapM fun name => do
    return (← IO.getEnv name).map fun text => (name, text)
  return .ofList texts

/-- Runs a command line; its status. -/
def run (arguments : List String) : IO UInt32 := do
  let e ← environment
  let former ← takeFor arguments e
  let outcome := Outcome.of e former arguments
  putBack former outcome.disk
  IO.print outcome.output
  IO.eprint outcome.complaint
  return outcome.status.toUInt32

end Program

end Apportion

/-- Runs the command line. -/
def main (arguments : List String) : IO UInt32 := Apportion.Program.run arguments
