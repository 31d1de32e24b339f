/-
  Catalogs: files kept in memory under their paths.

  Paths are compared by their components, and a directory is there as soon as a
  file lies below it.  A file either has content or, when only its placement
  matters, a size and blocks.

  * `Catalog.put` keeps content, `Catalog.putBlocks` a placement.
  * A handle reads the content the file had when it was opened, and what is
    written through a handle is seen once it is finished.
-/
import Apportion.Keyed
import Apportion.Store.Basic
import Apportion.Store.Names

namespace Apportion

/-- A file in memory. -/
structure Catalog.Object where
  content : Octets
  /-- The size that is told of the file. -/
  size : UInt64
  /-- Where the file is placed, in order of offset. -/
  blocks : List Block

/-- Files in memory, by the components of their paths. -/
structure Catalog where
  objects : Keyed (List Path.Component) Catalog.Object

namespace Catalog

/-- No files. -/
def empty : Catalog := ⟨.empty⟩

/-- A file with content and no known placement. -/
def Object.ofContent (content : Octets) : Object := ⟨content, Quantity.clamp content.length, []⟩

/-- A file of which only the size and the placement are known. -/
def Object.ofBlocks (size : UInt64) (blocks : List Block) : Object :=
  ⟨[], size, blocks.mergeSort fun a b => a.offset ≤ b.offset⟩

/-- The file at a path. -/
def object? (c : Catalog) (path : Path) : Option Object := c.objects.get? path.components

/-- Keeps content at a path, in place of any file there. -/
def put (c : Catalog) (path : Path) (content : Octets) : Catalog :=
  ⟨c.objects.put path.components (.ofContent content)⟩

/-- Keeps a placement at a path, in place of any file there. -/
def putBlocks (c : Catalog) (path : Path) (size : UInt64) (blocks : List Block) : Catalog :=
  ⟨c.objects.put path.components (.ofBlocks size blocks)⟩

/-- The components that lead from a path down to the files below it, the path's own excepted. -/
def below (c : Catalog) (path : Path) : List (List Path.Component) :=
  let above := path.components
  (c.objects.keys.filter fun key => above.isPrefixOf key && key ≠ above).map
    fun key => key.drop above.length

/-- Whether a file lies below a path. -/
def isDirectory (c : Catalog) (path : Path) : Bool := !(c.below path).isEmpty

/-- What is at a path. -/
def stat (c : Catalog) (path : Path) : Except Failure Stat :=
  match c.object? path with
  | some object => .ok ⟨object.size, false, false⟩
  | none => if c.isDirectory path then .ok ⟨0, true, false⟩ else .error (.notFound path)

/-- The first steps from a path down to the files below it. -/
def list (c : Catalog) (path : Path) : Except Failure (List String) :=
  match c.object? path with
  | some _ => .error (.storage path "path is not a directory" none)
  | none =>
    match (c.below path).filterMap fun steps => steps.head?.map Path.Component.text with
    | [] => .error (.notFound path)
    | names => .ok (Store.sortNames names)

/-- The blocks of a file that have a byte in `[start, start + length)`. -/
def blocks (c : Catalog) (path : Path) (start length : UInt64) : Except Failure (List Block) :=
  match c.object? path with
  | none => .error (.notFound path)
  | some object =>
    .ok (object.blocks.filter fun b => 0 < b.overlap start (Quantity.satAdd start length))

/-- A handle to read a file through. -/
structure Reader where
  /-- The size of the file when it was opened. -/
  size : UInt64
  /-- The bytes that are left. -/
  rest : Octets

/-- A handle to write a file through. -/
structure Writer where
  path : Path
  /-- The bytes written so far. -/
  written : Octets

/-- Opens a file to be read. -/
def openRead (c : Catalog) (path : Path) : Except Failure Reader :=
  match c.object? path with
  | none => .error (.notFound path)
  | some object => .ok ⟨Quantity.clamp object.content.length, object.content⟩

instance : Store Catalog where
  Reader := Reader
  Writer := Writer
  contains c path := (c.object? path).isSome || c.isDirectory path
  stat := stat
  list := list
  blocks := blocks
  makeDirectories c _ := (.ok (), c)
  openRead := openRead
  readerSize reader := reader.size
  readSome _ reader n := (reader.rest.take n, { reader with rest := reader.rest.drop n })
  readRest _ reader := reader.rest
  openWrite c path := (.ok ⟨path, []⟩, c)
  append c writer content := ({ writer with written := writer.written ++ content }, c)
  flush c writer := (writer, c)
  finish c writer := c.put writer.path writer.written
  discard c _ := c

end Catalog

end Apportion
