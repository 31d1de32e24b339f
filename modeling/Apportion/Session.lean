/-
  Sessions: a store with files open for reading and writing under names.

  * `openRead`, `readSome`: a reader under a name.
  * `openWrite`, `append`, `flush`, `finish`, `discard`: a writer under a name.
    A name taken anew gives up the writer it stood for.
  Requests for a name nothing is open under have no answer.
-/
import Apportion.Keyed
import Apportion.Store.Basic

namespace Apportion

/-- A store and the handles open on it. -/
structure Session (σ : Type) [Store σ] where
  store : σ
  readers : Keyed String (Store.Reader σ)
  writers : Keyed String (Store.Writer σ)

namespace Session

variable {σ : Type} [Store σ]

/-- A store with nothing open. -/
def of (store : σ) : Session σ := ⟨store, .empty, .empty⟩

/-- Opens a file to be read under a name and tells its size. -/
def openRead (s : Session σ) (name : String) (path : Path) : Except Failure UInt64 × Session σ :=
  match Store.openRead s.store path with
  | .error failure => (.error failure, s)
  | .ok reader => (.ok (Store.readerSize reader), { s with readers := s.readers.put name reader })

/-- The size of an open file and its next bytes. -/
def readSome (s : Session σ) (name : String) (n : Nat) : Option (UInt64 × Octets) × Session σ :=
  match s.readers.get? name with
  | none => (none, s)
  | some reader =>
    let (bytes, reader) := Store.readSome s.store reader n
    (some (Store.readerSize reader, bytes), { s with readers := s.readers.put name reader })

/-- Opens a file to be written under a name. -/
def openWrite (s : Session σ) (name : String) (path : Path) : Except Failure Unit × Session σ :=
  match Store.openWrite s.store path with
  | (.error failure, store) => (.error failure, { s with store })
  | (.ok writer, store) =>
    let store := match s.writers.get? name with
      | some former => Store.discard store former
      | none => store
    (.ok (), { s with store, writers := s.writers.put name writer })

/-- Does something with the writer under a name. -/
def withWriter (s : Session σ) (name : String)
    (act : σ → Store.Writer σ → Option (Store.Writer σ) × σ) : Option Unit × Session σ :=
  match s.writers.get? name with
  | none => (none, s)
  | some writer =>
    match act s.store writer with
    | (some writer, store) => (some (), { s with store, writers := s.writers.put name writer })
    | (none, store) => (some (), { s with store, writers := s.writers.erase name })

/-- Writes bytes. -/
def append (s : Session σ) (name : String) (data : Octets) : Option Unit × Session σ :=
  s.withWriter name fun store writer =>
    let (writer, store) := Store.append store writer data
    (some writer, store)

/-- Passes on what has been written. -/
def flush (s : Session σ) (name : String) : Option Unit × Session σ :=
  s.withWriter name fun store writer =>
    let (writer, store) := Store.flush store writer
    (some writer, store)

/-- Completes a file. -/
def finish (s : Session σ) (name : String) : Option Unit × Session σ :=
  s.withWriter name fun store writer => (none, Store.finish store writer)

/-- Gives a writer up. -/
def discard (s : Session σ) (name : String) : Option Unit × Session σ :=
  s.withWriter name fun store writer => (none, Store.discard store writer)

end Session

end Apportion
