/-
  Cursors: the walk of a worker through the references of its split.

  * `advance` steps to the next reference, `next` steps and yields it, `drain`
    yields all that are left.
  * `current`: the reference the cursor stands on, with its index.
  * `progress`: the fraction of the split that lies behind.
-/
import Apportion.Split.Basic

namespace Apportion

/-- Where a cursor stands. -/
inductive Cursor.Position where
  | unstarted
  | on (index : Nat)
  | exhausted
  deriving DecidableEq, Repr

/-- A walk through the references of a split. -/
structure Cursor where
  split : Split
  position : Cursor.Position

namespace Cursor

/-- A cursor in front of the first reference. -/
def start (s : Split) : Cursor := ⟨s, .unstarted⟩

/-- The index of the reference that follows, if the walk is not over. -/
def Position.following : Position → Option Nat
  | .unstarted => some 0
  | .on index => some (index + 1)
  | .exhausted => none

/-- Steps to the next reference; whether there is one. -/
def advance (c : Cursor) : Bool × Cursor :=
  match c.position.following with
  | none => (false, c)
  | some index =>
    if index < c.split.paths.length then (true, { c with position := .on index })
    else (false, { c with position := .exhausted })

/-- The reference the cursor stands on, with its index. -/
def current (c : Cursor) : Option (Nat × String) :=
  match c.position with
  | .on index => c.split.paths[index]?.map fun path => (index, path)
  | _ => none

/-- Steps to the next reference and yields it. -/
def next (c : Cursor) : Option (Nat × String) × Cursor :=
  match c.advance with
  | (true, c) => (c.current, c)
  | (false, c) => (none, c)

/-- At most `fuel` references, yielded one by one. -/
def drainWithin : (fuel : Nat) → Cursor → List (Nat × String) × Cursor
  | 0, c => ([], c)
  | fuel + 1, c =>
    match c.next with
    | (none, c) => ([], c)
    | (some item, c) =>
      let (items, c) := drainWithin fuel c
      (item :: items, c)

/-- All references that are left. -/
def drain (c : Cursor) : List (Nat × String) × Cursor :=
  drainWithin (c.split.paths.length + 1) c

/-- A count in single precision. -/
def single (n : Nat) : Float32 := (UInt64.ofNat n).toFloat32

/-- The fraction of the split that lies behind, between zero and one. -/
def progress (c : Cursor) : Float32 :=
  match c.position with
  | .unstarted => 0
  | .on index => single index / single c.split.paths.length
  | .exhausted => 1

end Cursor

end Apportion
