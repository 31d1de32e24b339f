/-
  Paths on a disk, and the requests that make files and directories.

  A path is followed step by step from the root or from the working directory.
  Every step needs a directory to start from, `.` stays and `..` goes up where
  the path has led, and a slash at the end asks for a directory.

  * `locate`: where a path leads.
  * `makeDirectory`, `makeDirectories`: a new directory, and all those missing
    on the way.
  * `createFile`: an empty file, in place of the content of one that is there.
-/
import Apportion.Disk.Basic
import Apportion.Failure

namespace Apportion

/-! ## System errors -/

namespace SystemError

/-- Nothing is at a path. -/
def missing : SystemError := ⟨.notFound, "No such file or directory (os error 2)"⟩

/-- A directory is to be made where something is. -/
def occupied : SystemError := ⟨.alreadyExists, "File exists (os error 17)"⟩

/-- A step starts from a file. -/
def notDirectory : SystemError := ⟨.other, "Not a directory (os error 20)"⟩

/-- A directory is to be written. -/
def isDirectory : SystemError := ⟨.other, "Is a directory (os error 21)"⟩

/-- A name, or a path as a whole, is too long. -/
def nameTooLong : SystemError := ⟨.other, "File name too long (os error 36)"⟩

/-- A path holds a zero character. -/
def zeroInside : SystemError := ⟨.other, "file name contained an unexpected NUL byte"⟩

end SystemError

namespace Disk

/-! ## Following paths -/

/-- The largest number of octets of a name. -/
def maxName : Nat := 255

/-- The largest number of octets of a path. -/
def maxPath : Nat := 4095

/-- The steps of a path: what stands between its slashes. -/
def stepsOf (p : Path) : List String :=
  ((p.text.toList.splitOn '/').filter (· ≠ [])).map String.ofList

/-- Whether a path asks for a directory by a slash at its end. -/
def endsInSlash (p : Path) : Bool := p.text.toList.getLast? = some '/'

/-- Refuses spellings that no path can have. -/
def checkSpelling (p : Path) : Except SystemError Unit :=
  if p.text.toList.contains (Char.ofNat 0) then .error .zeroInside
  else if p.text.isEmpty then .error .missing
  else if maxPath < p.text.utf8ByteSize then .error .nameTooLong
  else .ok ()

/-- The way down a tree: the names and what they lead to, the innermost first. -/
abbrev Trail := List (String × Tree)

/-- What a trail has led to. -/
def Trail.tree (root : Tree) : Trail → Tree
  | [] => root
  | (_, t) :: _ => t

/-- The location a trail has led to. -/
def Trail.location (trail : Trail) : Location := trail.map Prod.fst

/-- One step from a directory. -/
def step (root : Tree) (trail : Trail) (name : String) : Except SystemError Trail :=
  match trail.tree root with
  | .file _ => .error .notDirectory
  | .directory entries =>
    if name = "." then .ok trail
    else if name = ".." then .ok trail.tail
    else if maxName < name.utf8ByteSize then .error .nameTooLong
    else
      match entries.lookup name with
      | none => .error .missing
      | some t => .ok ((name, t) :: trail)

/-- The steps of a path, one after the other. -/
def follow (d : Disk) (steps : List String) : Except SystemError Trail :=
  steps.foldlM (step d.root) []

/-- The steps of a path from the root; a relative path starts from the working directory. -/
def stepsFromRoot (d : Disk) (p : Path) : List String :=
  if p.isAbsolute then stepsOf p else d.workingDirectory.reverse ++ stepsOf p

/-- Where a path leads, and what is there. -/
def locate (d : Disk) (p : Path) : Except SystemError (Location × Tree.Kind) := do
  checkSpelling p
  let trail ← d.follow (d.stepsFromRoot p)
  match trail.tree d.root with
  | .directory _ => return (trail.location, .directory)
  | .file content =>
    if endsInSlash p then throw .notDirectory else return (trail.location, .file content)

/-- Whether a path leads anywhere. -/
def contains (d : Disk) (p : Path) : Bool :=
  match d.locate p with
  | .ok _ => true
  | .error _ => false

/-- Whether a path leads to a directory. -/
def isDirectory (d : Disk) (p : Path) : Bool :=
  match d.locate p with
  | .ok (_, .directory) => true
  | _ => false

/-- The directory that the last step of a path starts from, and that step if it is to an entry. -/
def locateParent (d : Disk) (p : Path) : Except SystemError (Location × Option String) := do
  checkSpelling p
  let steps := d.stepsFromRoot p
  match steps.getLast? with
  | none => return ([], none)
  | some name =>
    let trail ← d.follow steps.dropLast
    match trail.tree d.root with
    | .file _ => throw .notDirectory
    | .directory _ =>
      if name = "." ∨ name = ".." then return (trail.location, none)
      else if maxName < name.utf8ByteSize then throw .nameTooLong
      else return (trail.location, some name)

/-! ## Making directories and files -/

/-- Makes a directory in one that is there. -/
def makeDirectory (d : Disk) (p : Path) : Except SystemError Disk := do
  match ← d.locateParent p with
  | (_, none) => throw .occupied
  | (above, some name) =>
    match d.find? (name :: above) with
    | some _ => throw .occupied
    | none => return d.place name above .directory

/-- Makes the first directory of a list of paths, each the parent of the one before it; what is
    missing above it is made first. -/
def makeLineage (d : Disk) : List Path → Except SystemError Unit × Disk
  | [] => (.ok (), d)
  | p :: parents =>
    if p.text.isEmpty then (.ok (), d)
    else
      match d.makeDirectory p with
      | .ok d => (.ok (), d)
      | .error error =>
        if error.kind = .notFound then
          match d.makeLineage parents with
          | (.error error, d) => (.error error, d)
          | (.ok (), d) =>
            match d.makeDirectory p with
            | .ok d => (.ok (), d)
            | .error error => if d.isDirectory p then (.ok (), d) else (.error error, d)
        else if d.isDirectory p then (.ok (), d)
        else (.error error, d)

/-- At most `fuel` paths: a path, its parent and so on. -/
def lineageWithin : (fuel : Nat) → Path → List Path
  | 0, _ => []
  | fuel + 1, p =>
    match p.parent? with
    | none => [p]
    | some parent => p :: lineageWithin fuel parent

/-- A path and all paths above it, of which each is shorter than the one before. -/
def lineage (p : Path) : List Path := lineageWithin (p.text.length + 1) p

/-- Makes a directory and those missing above it. -/
def makeDirectories (d : Disk) (p : Path) : Except SystemError Unit × Disk :=
  d.makeLineage (lineage p)

/-- Makes an empty file, or empties the file that is there. -/
def createFile (d : Disk) (p : Path) : Except SystemError (Location × Disk) := do
  match ← d.locateParent p with
  | (_, none) => throw .isDirectory
  | (above, some name) =>
    if endsInSlash p ∨ d.find? (name :: above) = some .directory then throw .isDirectory
    else return (name :: above, d.place name above (.file []))

end Disk

end Apportion
