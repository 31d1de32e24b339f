/-
  Stores on a disk: files below a base directory, read and written through
  buffers, every block of them held by the same hosts.

  * `DiskStore.create` makes a store after its settings, and its base directory
    if it is missing.
  * Blocks are computed: they all have the same length, the last one excepted.
  * A writer keeps bytes back until its buffer is full; `flush`, `finish` and
    `discard` pass them on.  A reader fetches bytes ahead, one buffer at a time.
-/
import Apportion.Disk.Lookup
import Apportion.Settings.Basic
import Apportion.Store.Basic
import Apportion.Store.Names

namespace Apportion

/-- Files below a base directory of a disk. -/
structure DiskStore where
  /-- The base directory. -/
  base : Path
  /-- The number of bytes a buffer holds. -/
  bufferSize : UInt64
  /-- The number of bytes of a block. -/
  blockSize : UInt64
  /-- The hosts that hold every block. -/
  hosts : List String
  disk : Disk

namespace DiskStore

/-- The store after its settings; a block has at least one byte. -/
def on (settings : StorageSettings) (disk : Disk) : DiskStore :=
  { base := settings.basePath
    bufferSize := settings.bufferSize
    blockSize := max settings.blockSize 1
    hosts := settings.hosts
    disk }

/-- Makes a store, and its base directory if it is missing. -/
def create (settings : StorageSettings) (disk : Disk) : Except Failure DiskStore × Disk :=
  if disk.contains settings.basePath then (.ok (on settings disk), disk)
  else
    match disk.makeDirectories settings.basePath with
    | (.ok (), disk) => (.ok (on settings disk), disk)
    | (.error error, disk) =>
      (.error (.ofSystem settings.basePath "failed to create base directory" error), disk)

/-- Where a path of the store lies on the disk. -/
def full (s : DiskStore) (path : Path) : Path := s.base.join path

/-- The number of bytes a directory itself takes. -/
def directorySize : UInt64 := 4096

/-- What is at a path. -/
def stat (s : DiskStore) (path : Path) : Except Failure Stat :=
  match s.disk.locate (s.full path) with
  | .error error => .error (.ofSystem (s.full path) "failed to read metadata" error)
  | .ok (_, .directory) => .ok ⟨directorySize, true, true⟩
  | .ok (_, .file content) => .ok ⟨Quantity.clamp content.length, false, true⟩

/-- The names of the entries of a directory. -/
def list (s : DiskStore) (path : Path) : Except Failure (List String) :=
  match s.disk.locate (s.full path) with
  | .error _ => .error (.notFound (s.full path))
  | .ok (_, .file _) => .error (.storage (s.full path) "path is not a directory" none)
  | .ok (loc, .directory) => .ok (Store.sortNames (s.disk.names loc))

/-- The block with the given index of a file of `size` bytes. -/
def block (s : DiskStore) (size : UInt64) (index : Nat) : Block :=
  let offset := UInt64.ofNat index * s.blockSize
  { hosts := s.hosts, offset, length := min s.blockSize (size - offset) }

/-- The blocks of a file of `size` bytes that meet `[start, start + length)`. -/
def blocksOf (s : DiskStore) (size start length : UInt64) : List Block :=
  let stop := min (Quantity.satAdd start length) size
  if stop ≤ start then []
  else
    let first := (start / s.blockSize).toNat
    let last := ((stop - 1) / s.blockSize).toNat
    (List.range' first (last + 1 - first)).map (s.block size)

/-- The blocks of a file that meet `[start, start + length)`. -/
def blocks (s : DiskStore) (path : Path) (start length : UInt64) :
    Except Failure (List Block) := do
  let stat ← s.stat path
  return s.blocksOf stat.size start length

/-- Makes a directory and those above it. -/
def makeDirectories (s : DiskStore) (path : Path) : Except Failure Unit × DiskStore :=
  match s.disk.makeDirectories (s.full path) with
  | (.ok (), disk) => (.ok (), { s with disk })
  | (.error error, disk) =>
    (.error (.ofSystem (s.full path) "failed to create directories" error), { s with disk })

/-! ## Reading -/

/-- A handle to read a file through. -/
structure Reader where
  location : Location
  /-- The size of the file when it was opened. -/
  size : UInt64
  /-- The number of bytes the buffer holds. -/
  capacity : Nat
  /-- The byte of the file the next fetch starts at. -/
  position : Nat
  /-- The bytes fetched and not yet given out. -/
  ahead : Octets

/-- Opens a file to be read. -/
def openRead (s : DiskStore) (path : Path) : Except Failure Reader :=
  match s.disk.locate (s.full path) with
  | .error error => .error (.ofSystem (s.full path) "failed to open file" error)
  | .ok (_, .directory) => .error (.storage (s.full path) "path is a directory" none)
  | .ok (location, .file content) =>
    .ok { location, size := Quantity.clamp content.length, capacity := s.bufferSize.toNat,
          position := 0, ahead := [] }

/-- The next portion of at most `n` bytes: of those fetched before, if there are any, and otherwise
    of the file, from which a whole buffer is fetched if the portion is less than that. -/
def readPortion (s : DiskStore) (r : Reader) (n : Nat) : Octets × Reader :=
  if r.ahead = [] then
    let fetched := ((s.disk.contentAt r.location).drop r.position).take (max n r.capacity)
    (fetched.take n, { r with position := r.position + fetched.length, ahead := fetched.drop n })
  else (r.ahead.take n, { r with ahead := r.ahead.drop n })

/-- The room that bytes are gathered in. -/
structure Room where
  /-- The number of bytes there is room for. -/
  size : Nat
  /-- The number of bytes in it. -/
  used : Nat
  /-- The largest portion asked for. -/
  most : Nat

namespace Room

/-- The first portion, and the least number of bytes there is room for behind those in it. -/
def least : Nat := 32

/-- Room that is full with a first portion. -/
def full (used : Nat) : Room := ⟨used, used, 8192⟩

/-- Room for more, twice as much where too little was left. -/
def extend (room : Room) : Room :=
  if room.size - room.used < least then
    { room with size := max (2 * room.size) (room.used + least) }
  else room

/-- The portion that is asked for. -/
def portion (room : Room) : Nat := min (room.size - room.used) room.most

/-- Room with a portion of `n` bytes more in it; a largest portion that has come whole is
    followed by larger ones. -/
def fill (room : Room) (n : Nat) : Room :=
  { room with
    used := room.used + n
    most := if room.most ≤ room.portion ∧ n = room.portion then 2 * room.most else room.most }

end Room

/-- The next `n` bytes in portions, up to one without bytes.  At most `fuel` portions are asked
    for. -/
def readPortions (s : DiskStore) : (fuel : Nat) → Room → Reader → (n : Nat) → Octets × Reader
  | 0, _, r, _ => ([], r)
  | fuel + 1, room, r, n =>
    if n = 0 then ([], r)
    else
      let room := room.extend
      match s.readPortion r (min n room.portion) with
      | ([], r) => ([], r)
      | (portion, r) =>
        let (rest, r) := s.readPortions fuel (room.fill portion.length) r (n - portion.length)
        (portion ++ rest, r)

/-- The next `n` bytes.  They are asked for in portions, a small one first, since how much is
    fetched ahead depends on them. -/
def readSome (s : DiskStore) (r : Reader) (n : Nat) : Octets × Reader :=
  if n = 0 then ([], r)
  else
    match s.readPortion r (min n Room.least) with
    | ([], r) => ([], r)
    | (portion, r) =>
      let (rest, r) := s.readPortions n (.full portion.length) r (n - portion.length)
      (portion ++ rest, r)

/-- All bytes that are left. -/
def readRest (s : DiskStore) (r : Reader) : Octets :=
  r.ahead ++ (s.disk.contentAt r.location).drop r.position

/-! ## Writing -/

/-- A handle to write a file through. -/
structure Writer where
  location : Location
  /-- The number of bytes the buffer holds. -/
  capacity : Nat
  /-- The byte of the file at which the next bytes passed on go. -/
  position : Nat
  /-- The bytes not yet passed on. -/
  pending : Octets

/-- Makes the directory that a path lies in, if it is missing. -/
def makeParent (s : DiskStore) (full : Path) : Except Failure Unit × DiskStore :=
  match full.parent? with
  | none => (.ok (), s)
  | some parent =>
    if s.disk.contains parent then (.ok (), s)
    else
      match s.disk.makeDirectories parent with
      | (.ok (), disk) => (.ok (), { s with disk })
      | (.error error, disk) =>
        (.error (.ofSystem parent "failed to create parent directories" error), { s with disk })

/-- Opens a file to be written anew, in a directory that is made if it is missing. -/
def openWrite (s : DiskStore) (path : Path) : Except Failure Writer × DiskStore :=
  let full := s.full path
  match s.makeParent full with
  | (.error failure, s) => (.error failure, s)
  | (.ok (), s) =>
    match s.disk.createFile full with
    | .error error => (.error (.ofSystem full "failed to create file" error), s)
    | .ok (location, disk) =>
      (.ok { location, capacity := s.bufferSize.toNat, position := 0, pending := [] },
        { s with disk })

/-- Writes bytes into the file at the position of a writer. -/
def pass (s : DiskStore) (w : Writer) (data : Octets) : Writer × DiskStore :=
  ({ w with position := w.position + data.length },
    { s with disk := s.disk.writeAt w.location w.position data })

/-- Passes on the bytes that were kept back. -/
def flush (s : DiskStore) (w : Writer) : Writer × DiskStore :=
  let (passed, s) := s.pass w w.pending
  ({ passed with pending := [] }, s)

/-- Writes bytes.  They are kept back while there is room for more; bytes that do not fit make
    way for themselves, and those that would fill a buffer alone go straight on. -/
def append (s : DiskStore) (w : Writer) (data : Octets) : Writer × DiskStore :=
  let room := w.capacity - w.pending.length
  let (w, s) := if room < data.length then s.flush w else (w, s)
  if data.length < w.capacity then
    ({ w with pending := w.pending ++ data }, s)
  else s.pass w data

instance : Store DiskStore where
  Reader := Reader
  Writer := Writer
  contains s path := s.disk.contains (s.full path)
  stat := stat
  list := list
  blocks := blocks
  makeDirectories := makeDirectories
  openRead := openRead
  readerSize reader := reader.size
  readSome := readSome
  readRest := readRest
  openWrite := openWrite
  append := append
  flush := flush
  finish s w := (s.flush w).2
  discard s w := (s.flush w).2

end DiskStore

end Apportion
