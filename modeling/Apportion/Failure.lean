/-
  What can go wrong, and how it is told.

  * `Failure`: the kinds of failure, each with the data its wording needs.
  * `Failure.message`: the wording.
  * `SystemError` is what the operating system answers to a request it cannot
    meet; `Failure.ofSystem` tells a missing path from every other trouble.
-/
import Apportion.Path

namespace Apportion

/-- The answers of the operating system that are told apart. -/
inductive SystemError.Kind where
  | notFound
  | permissionDenied
  | alreadyExists
  | other
  deriving DecidableEq, Repr

/-- An answer of the operating system to a request it cannot meet. -/
structure SystemError where
  kind : SystemError.Kind
  /-- What the system says about it. -/
  text : String
  deriving DecidableEq, Repr

/-- The failures of planning, storing and configuring. -/
inductive Failure where
  /-- There is nothing to plan. -/
  | noInput
  /-- A path does not exist. -/
  | notFound (path : Path)
  /-- A store could not do what was asked, at times because of the trouble told by `cause`. -/
  | storage (path : Path) (problem : String) (cause : Option String)
  /-- A descriptor, or the file that holds it, is unfit. -/
  | descriptor (reference problem : String)
  /-- Octets are no split. -/
  | corruptSplit (problem : String)
  /-- Settings are unfit. -/
  | settings (problem : String) (cause : Option String)
  /-- A value has no encoding, or octets do not encode one. -/
  | serialization (problem : String)
  /-- A sum of byte counts exceeds the largest quantity. -/
  | sumOverflow
  deriving DecidableEq, Repr

namespace Failure

/-- The wording of a failure. -/
def message : Failure → String
  | noInput => "No input found"
  | notFound path => s!"Path '{path.text}' does not exist"
  | storage path problem _ => s!"Storage error at '{path.text}': {problem}"
  | descriptor reference problem => s!"Descriptor '{reference}' error: {problem}"
  | corruptSplit problem => s!"Corrupt split record: {problem}"
  | settings problem _ => s!"Configuration error: {problem}"
  | serialization problem => s!"Serialization error: {problem}"
  | sumOverflow => "attempt to add with overflow"

/-- What brought a failure about, where something else did. -/
def cause : Failure → Option String
  | storage _ _ cause | settings _ cause => cause
  | _ => none

/-- A path that does not exist is a failure of its own. -/
def isNotFound : Failure → Bool
  | notFound _ => true
  | _ => false

/-- A system error met while a store did something with `path`. -/
def ofSystem (path : Path) (problem : String) (error : SystemError) : Failure :=
  match error.kind with
  | .notFound => notFound path
  | _ => storage path problem (some error.text)

end Failure

end Apportion
