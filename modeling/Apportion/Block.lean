/-
  Blocks: the pieces a stored file is placed in, each held by some hosts.

  * `Block.stop`: where a block ends.
  * `Block.overlap`: how many of its bytes lie in a range.
  * `toNat_overlap`: the overlap is the length of the common part.
-/
import Apportion.Quantity

namespace Apportion

/-- One block of a stored file and the hosts that hold it. -/
structure Block where
  /-- The hosts that hold a copy. -/
  hosts : List String
  /-- The byte of the file at which the block starts. -/
  offset : UInt64
  /-- The number of bytes. -/
  length : UInt64
  deriving DecidableEq, Repr

namespace Block

open Quantity

/-- The byte after the last one of the block, at most the largest quantity. -/
def stop (b : Block) : UInt64 := satAdd b.offset b.length

/-- The number of bytes of the block that lie in `[start, stop)`. -/
def overlap (b : Block) (start stop : UInt64) : UInt64 :=
  satSub (min b.stop stop) (max b.offset start)

theorem toNat_min (a b : UInt64) : (min a b).toNat = min a.toNat b.toNat := by
  change (if a ≤ b then a else b).toNat = _
  split <;> rename_i h <;> rw [UInt64.le_iff_toNat_le] at h <;> omega

theorem toNat_max (a b : UInt64) : (max a b).toNat = max a.toNat b.toNat := by
  change (if a ≤ b then b else a).toNat = _
  split <;> rename_i h <;> rw [UInt64.le_iff_toNat_le] at h <;> omega

theorem toNat_stop (b : Block) :
    b.stop.toNat = min (b.offset.toNat + b.length.toNat) Quantity.largest := toNat_satAdd _ _

theorem toNat_overlap (b : Block) (start stop : UInt64) :
    (b.overlap start stop).toNat =
      min b.stop.toNat stop.toNat - max b.offset.toNat start.toNat := by
  rw [overlap, toNat_satSub, toNat_min, toNat_max]

end Block

end Apportion
