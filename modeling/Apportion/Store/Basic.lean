/-
  Stores: what planning asks of the place where files are kept.

  * `Store` collects the requests: what is at a path, its entries, the blocks a
    file is placed in, and handles to read and to write through.
  * `Store.read` and `Store.save` move a whole file through a handle.
-/
import Apportion.Block
import Apportion.Failure
import Apportion.Octets

namespace Apportion

/-- What a store tells about a path. -/
structure Stat where
  /-- The number of bytes of a file. -/
  size : UInt64
  isDirectory : Bool
  /-- Whether the store knows when it was last changed. -/
  isDated : Bool
  deriving DecidableEq, Repr

/-- A place where files are kept.  Requests that may change it answer with the store they
    leave, also when they fail. -/
class Store (σ : Type) where
  /-- A handle to read a file through. -/
  Reader : Type
  /-- A handle to write a file through. -/
  Writer : Type
  /-- Whether there is a file or a directory at a path. -/
  contains : σ → Path → Bool
  /-- What is at a path. -/
  stat : σ → Path → Except Failure Stat
  /-- The names of the entries of a directory, sorted. -/
  list : σ → Path → Except Failure (List String)
  /-- The blocks of a file that meet `[start, start + length)`, whole and in order of offset. -/
  blocks : σ → Path → (start length : UInt64) → Except Failure (List Block)
  /-- Makes a directory and those above it. -/
  makeDirectories : σ → Path → Except Failure Unit × σ
  /-- Opens a file to be read. -/
  openRead : σ → Path → Except Failure Reader
  /-- The size of the file when it was opened. -/
  readerSize : Reader → UInt64
  /-- The next bytes, as many as asked for if there are that many. -/
  readSome : σ → Reader → Nat → Octets × Reader
  /-- All bytes that are left. -/
  readRest : σ → Reader → Octets
  /-- Opens a file to be written anew. -/
  openWrite : σ → Path → Except Failure Writer × σ
  /-- Writes bytes. -/
  append : σ → Writer → Octets → Writer × σ
  /-- Passes on what has been written. -/
  flush : σ → Writer → Writer × σ
  /-- Completes the file. -/
  finish : σ → Writer → σ
  /-- Gives the handle up without completing the file. -/
  discard : σ → Writer → σ

namespace Store

variable {σ : Type} [Store σ]

/-- All bytes of a file. -/
def read (s : σ) (path : Path) : Except Failure Octets := do
  let reader ← openRead s path
  return readRest s reader

/-- Writes a file anew. -/
def save (s : σ) (path : Path) (content : Octets) : Except Failure Unit × σ :=
  match openWrite s path with
  | (.error failure, s) => (.error failure, s)
  | (.ok writer, s) =>
    let (writer, s) := append s writer content
    (.ok (), finish s writer)

end Store

end Apportion
