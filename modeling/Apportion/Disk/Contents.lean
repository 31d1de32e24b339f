/-
  Whole files on a disk.

  * `read`: the content of the file that a path leads to.
  * `install` puts a file at a path, in directories that are made if they are
    missing.
  * `enter` makes a directory the working directory.
-/
import Apportion.Disk.Lookup

namespace Apportion

namespace Disk

/-- The content of the file that a path leads to. -/
def read (d : Disk) (p : Path) : Except SystemError Octets := do
  match ← d.locate p with
  | (_, .directory) => throw .isDirectory
  | (_, .file content) => return content

/-- Puts a file at a path. -/
def install (d : Disk) (p : Path) (content : Octets) : Except SystemError Unit × Disk :=
  let (made, d) := match p.parent? with
    | none => (Except.ok (), d)
    | some parent => d.makeDirectories parent
  match made with
  | .error error => (.error error, d)
  | .ok () =>
    match d.createFile p with
    | .error error => (.error error, d)
    | .ok (loc, d) => (.ok (), d.writeAt loc 0 content)

/-- Makes the directory that a path leads to the working directory. -/
def enter (d : Disk) (p : Path) : Except SystemError Disk := do
  let (loc, _) ← d.locate p
  if h : (d.root.at? loc.reverse).map Tree.kind = some .directory then
    return { d with workingDirectory := loc, working := h }
  else throw .notDirectory

end Disk

end Apportion
