/-
  Which bytes of a file lie in a range and in a block, counted position by position.

  * `Block.positions`: the positions; there are as many as the block overlaps the range.
  * `Block.bytesFor`: what blocks hold for a host, once for each time it is listed.
  * `foldlM_creditBlock`: crediting blocks is crediting their hosts one after the other.
-/
import Apportion.Locality
import Apportion.Proofs.Tally.Credits
import Mathlib.Order.Interval.Finset.Nat

namespace Apportion

namespace Block

open Quantity

/-- The positions of bytes that lie in `[start, stop)` and in the block. -/
def positions (b : Block) (start stop : Nat) : Finset Nat :=
  Finset.Ico start stop ∩
    Finset.Ico b.offset.toNat (min (b.offset.toNat + b.length.toNat) largest)

theorem card_positions (b : Block) (start stop : UInt64) :
    (b.positions start.toNat stop.toNat).card = (b.overlap start stop).toNat := by
  rw [positions, Finset.Ico_inter_Ico, Nat.card_Ico, toNat_overlap, toNat_stop, max_comm, min_comm]

/-- The bytes of `[start, stop)` that blocks hold for a host, once for each time they list it. -/
def bytesFor (host : String) (start stop : Nat) (bs : List Block) : Nat :=
  (bs.map fun b => b.hosts.count host * (b.positions start stop).card).sum

/-- An empty range has no bytes. -/
theorem bytesFor_self (host : String) (n : Nat) (bs : List Block) : bytesFor host n n bs = 0 := by
  simp [bytesFor, positions]

/-- The credits of the hosts of a block for its bytes in `[start, stop)`. -/
def credits (start stop : UInt64) (b : Block) : List (String × UInt64) :=
  if b.overlap start stop = 0 then [] else b.hosts.map fun host => (host, b.overlap start stop)

/-- Nothing is credited with no bytes. -/
theorem ne_zero_of_mem_flatMap_credits {start stop : UInt64} (bs : List Block) :
    ∀ credit ∈ bs.flatMap (credits start stop), credit.2 ≠ 0 := by
  intro credit h
  obtain ⟨b, -, h⟩ := List.mem_flatMap.1 h
  unfold credits at h
  split at h
  · cases h
  · obtain ⟨host, -, rfl⟩ := List.mem_map.1 h
    assumption

theorem credited_map (host : String) (bytes : UInt64) (hosts : List String) :
    Tally.credited host (hosts.map fun h => (h, bytes)) = hosts.count host * bytes.toNat := by
  induction hosts with
  | nil => simp [Tally.credited]
  | cons h hosts ih =>
    simp only [Tally.credited, List.map_cons, List.sum_cons] at ih ⊢
    rw [ih]
    by_cases hh : host = h
    · subst hh; rw [if_pos rfl, List.count_cons_self, Nat.succ_mul, Nat.add_comm]
    · rw [if_neg hh, List.count_cons_of_ne (Ne.symm hh), Nat.zero_add]

theorem credited_credits (host : String) (start stop : UInt64) (b : Block) :
    Tally.credited host (b.credits start stop) =
      b.hosts.count host * (b.positions start.toNat stop.toNat).card := by
  rw [card_positions, credits]
  split
  · rename_i h; simp [h, Tally.credited]
  · exact credited_map host _ _

theorem credited_flatMap_credits (host : String) (start stop : UInt64) (bs : List Block) :
    Tally.credited host (bs.flatMap (credits start stop)) =
      bytesFor host start.toNat stop.toNat bs := by
  induction bs with
  | nil => rfl
  | cons b bs ih =>
    rw [bytesFor, List.map_cons, List.sum_cons, ← credited_credits, ← bytesFor, ← ih,
      List.flatMap_cons, Tally.credited, List.map_append, List.sum_append]
    rfl

/-- Blocks without a byte in the range do not count. -/
theorem bytesFor_filter (host : String) (start stop : UInt64) (bs : List Block) :
    bytesFor host start.toNat stop.toNat (bs.filter fun b => 0 < b.overlap start stop) =
      bytesFor host start.toNat stop.toNat bs := by
  induction bs with
  | nil => rfl
  | cons b bs ih =>
    by_cases h : 0 < b.overlap start stop
    · rw [List.filter_cons_of_pos (by simpa using h)]
      simp only [bytesFor, List.map_cons, List.sum_cons] at ih ⊢
      rw [ih]
    · have hzero : (b.positions start.toNat stop.toNat).card = 0 := by
        rw [card_positions]
        rw [UInt64.lt_iff_toNat_lt, UInt64.toNat_zero] at h
        omega
      rw [List.filter_cons_of_neg (by simpa using h), ih]
      simp only [bytesFor, List.map_cons, List.sum_cons, hzero, Nat.mul_zero, Nat.zero_add]

end Block

namespace Locality

theorem within_bind (t : Option Tally) (f : Tally → Option Tally) :
    (within t >>= fun t => within (f t)) = within (t.bind f) := by
  cases t <;> rfl

theorem foldlM_add (bytes : UInt64) (hosts : List String) (t : Tally) :
    hosts.foldlM (fun t host => within (t.add host bytes)) t =
      within (t.addAll (hosts.map fun host => (host, bytes))) := by
  induction hosts generalizing t with
  | nil => rfl
  | cons host hosts ih =>
    rw [List.foldlM_cons, List.map_cons, Tally.addAll, List.foldlM_cons]
    simp only [ih]
    exact within_bind _ _

theorem creditBlock_eq (start stop : UInt64) (t : Tally) (b : Block) :
    creditBlock start stop t b = within (t.addAll (b.credits start stop)) := by
  simp only [creditBlock, Block.credits]
  split
  · rfl
  · exact foldlM_add _ _ _

theorem foldlM_creditBlock (start stop : UInt64) (bs : List Block) (t : Tally) :
    bs.foldlM (creditBlock start stop) t =
      within (t.addAll (bs.flatMap (Block.credits start stop))) := by
  induction bs generalizing t with
  | nil => rfl
  | cons b bs ih =>
    rw [List.foldlM_cons, List.flatMap_cons, Tally.addAll_append, creditBlock_eq]
    simp only [ih]
    exact within_bind _ _

end Locality

end Apportion
