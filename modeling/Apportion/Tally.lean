/-
  Tallies: how many bytes of the data under consideration each host holds, and
  which hosts are worth naming.

  * `add` credits bytes to a host, `addRange` counts a range into the total;
    both refuse a sum beyond the largest quantity.
  * `ranked`: the hosts by bytes, most first, equals in order of first credit.
  * `leaders`: the hosts from the top of the ranking down to the first that is
    beyond the least number, ties with nobody kept and holds too small a share.
  * `shares`: who holds what, without the slots; `get?_eq`, `shares_put`, `add_of_get?_eq_none` and
    `add_of_get?_eq_some`: what a lookup and a credit are there.
-/
import Apportion.Indexed
import Apportion.Quantity

namespace Apportion

/-- The bytes credited to each host, in order of first credit and with the slots of the hosts, and
    the bytes considered in all. -/
structure Tally where
  slots : Indexed String UInt64
  /-- The lengths of all ranges together. -/
  total : UInt64

namespace Tally

open Quantity

/-- Nothing counted yet. -/
def empty : Tally := ⟨.empty, 0⟩

/-- Credits `bytes` to `host`, in its slot or else in a new one, unless the sum exceeds the largest
    quantity. -/
def add (t : Tally) (host : String) (bytes : UInt64) : Option Tally :=
  match h : t.slots.slot? host with
  | some slot =>
    (addWithin? t.slots.entries[slot].2 bytes).map fun sum =>
      { t with slots := t.slots.set slot sum }
  | none => some { t with slots := t.slots.push host bytes h }

/-- Counts a range of `length` bytes into the total, unless the sum exceeds the
    largest quantity. -/
def addRange (t : Tally) (length : UInt64) : Option Tally :=
  (addWithin? t.total length).map fun sum => { t with total := sum }

/-- The bytes credited to a host. -/
def get? (t : Tally) (host : String) : Option UInt64 :=
  (t.slots.slot? host).map fun slot => t.slots.entries[slot].2

/-- The number of hosts. -/
def size (t : Tally) : Nat := t.slots.entries.size

/-- The hosts by bytes, most first; equals stay in order of first credit. -/
def ranked (t : Tally) : List (String × UInt64) :=
  t.slots.entries.toList.mergeSort fun a b => b.2 ≤ a.2

/-- Whether `bytes` are at least the share `threshold` of the total. -/
def dominates (t : Tally) (threshold : Float) (bytes : UInt64) : Bool :=
  t.total ≠ 0 && bytes.toFloat / t.total.toFloat ≥ threshold

/-- The front of a ranking: a host is kept if fewer than `least` are kept before it, if it holds
    as much as the `previous` one, or if it holds enough alone; the first that fails ends it. -/
def keepLeading (least : Nat) (enough : UInt64 → Bool) :
    (kept : Nat) → (previous : Option UInt64) → List (String × UInt64) → List (String × UInt64)
  | _, _, [] => []
  | kept, previous, (host, bytes) :: rest =>
    if kept < least || previous = some bytes || enough bytes then
      (host, bytes) :: keepLeading least enough (kept + 1) (some bytes) rest
    else []

/-- The hosts worth naming: at least `least` of them if there are that many, every host with at
    least the share `threshold`, and no tie cut. -/
def leaders (t : Tally) (least : Nat) (threshold : Float) : List String :=
  (keepLeading least (t.dominates threshold) 0 none t.ranked).map Prod.fst

/-! ## Without the slots -/

/-- The bytes credited to each host, in order of first credit. -/
def shares (t : Tally) : Keyed String UInt64 := t.slots.toKeyed

/-- A host with these bytes, all others as before. -/
def put (t : Tally) (host : String) (bytes : UInt64) : Tally :=
  { t with slots := t.slots.put host bytes }

variable {t t' : Tally} {host : String} {bytes held : UInt64}

theorem get?_eq (t : Tally) (host : String) : t.get? host = t.shares.get? host :=
  (t.slots.get?_toKeyed host).symm

theorem mem_shares_iff : (host, bytes) ∈ t.shares.entries ↔ t.get? host = some bytes := by
  rw [get?_eq, Keyed.mem_entries_iff]

@[simp] theorem shares_put (t : Tally) (host : String) (bytes : UInt64) :
    (t.put host bytes).shares = t.shares.put host bytes := t.slots.toKeyed_put host bytes

theorem add_of_get?_eq_none (h : t.get? host = none) :
    t.add host bytes = some (t.put host bytes) := by
  have hslot : t.slots.slot? host = none := Option.map_eq_none_iff.1 h
  unfold add
  split
  · rename_i hslot'
    cases hslot.symm.trans hslot'
  · rw [put, Indexed.put_of_slot?_eq_none hslot]

theorem add_of_get?_eq_some (h : t.get? host = some held) :
    t.add host bytes = (addWithin? held bytes).map (t.put host) := by
  obtain ⟨slot, hslot, rfl⟩ := Option.map_eq_some_iff.1 h
  have hput : t.put host = fun sum => { t with slots := t.slots.set slot sum } := by
    funext sum
    rw [put, Indexed.put_of_slot?_eq_some hslot]
  unfold add
  split
  · rename_i hslot'
    cases hslot.symm.trans hslot'
    rw [hput]
  · rename_i hslot'
    cases hslot.symm.trans hslot'

/-- Who holds what and the total are all there is to a tally. -/
theorem eq_of_shares_eq (hshares : t.shares = t'.shares) (htotal : t.total = t'.total) :
    t = t' := by
  have hslots : t.slots = t'.slots := Indexed.eq_of_toKeyed_eq hshares
  cases t
  cases t'
  cases hslots
  cases htotal
  rfl

end Tally

end Apportion
