/-
  The blocks of files on a disk store, which are computed and not kept.

  * `blocksOf_eq`: they are the blocks of a tiling that meet the range asked for.
  * `blocksOf?`: the same computation with every operation checked; `blocksOf?_eq` says that it
    never leaves the quantities.
  * `blocks_putBlocks`: what a catalog answers for a placement that it was given in any order.
  * `blocks_eq_of_tiling`: a catalog with the tiling of a file answers as the disk store does.
-/
import Apportion.Catalog
import Apportion.Disk.Store
import Apportion.Proofs.Sequence
import Apportion.Proofs.Tiling
import Mathlib.Data.List.Nodup

namespace Apportion

/-! ## Checked operations -/

namespace Quantity

/-- The product, if it is a quantity. -/
def mulWithin? (a b : UInt64) : Option UInt64 :=
  if a.toNat * b.toNat ≤ largest then some (a * b) else none

/-- The difference, if it is a quantity. -/
def subWithin? (a b : UInt64) : Option UInt64 := if b ≤ a then some (a - b) else none

/-- The quotient, if there is one. -/
def divWithin? (a b : UInt64) : Option UInt64 := if b = 0 then none else some (a / b)

end Quantity

theorem mapM_eq_some_map {α β : Type} {f : α → Option β} {g : α → β} {l : List α}
    (h : ∀ a ∈ l, f a = some (g a)) : l.mapM f = some (l.map g) := by
  induction l with
  | nil => rfl
  | cons a l ih =>
    obtain ⟨ha, hl⟩ := List.forall_mem_cons.1 h
    rw [List.mapM_cons, ha, ih hl]
    rfl

namespace DiskStore

open Quantity

/-! ## Computed blocks -/

variable {s : DiskStore} {size : UInt64}

theorem block_eq_tile {index : Nat} (h : index * s.blockSize.toNat < size.toNat) :
    s.block size index = Block.tile s.hosts s.blockSize.toNat size.toNat index := by
  have hsize := size.toNat_lt
  have hoffset : UInt64.ofNat index * s.blockSize = UInt64.ofNat (index * s.blockSize.toNat) := by
    rw [UInt64.ofNat_mul, UInt64.ofNat_toNat]
  have htoNat : (UInt64.ofNat (index * s.blockSize.toNat)).toNat = index * s.blockSize.toNat :=
    UInt64.toNat_ofNat_of_lt' (h.trans hsize)
  have hle : UInt64.ofNat (index * s.blockSize.toNat) ≤ size := by
    rw [UInt64.le_iff_toNat_le, htoNat]
    exact Nat.le_of_lt h
  simp only [block, Block.tile, hoffset, Block.mk.injEq, true_and]
  refine UInt64.toNat_inj.1 ?_
  rw [Block.toNat_min, UInt64.toNat_sub_of_le _ _ hle, htoNat, UInt64.toNat_ofNat_of_lt']
  exact (Nat.min_le_right ..).trans_lt ((Nat.sub_le ..).trans_lt hsize)

/-- The end of a range in a file, which stops at the end of the file. -/
theorem toNat_min_satAdd (start length size : UInt64) :
    (min (satAdd start length) size).toNat = min (start.toNat + length.toNat) size.toNat := by
  have hsize := size.toNat_lt
  rw [Block.toNat_min, toNat_satAdd, largest]
  omega

/-- The indices that are computed are those of blocks with a byte in the file. -/
theorem index_lt {start stop : UInt64} (hlt : start < stop) (hle : stop ≤ size) {index : Nat}
    (h : index ∈ List.range' (start / s.blockSize).toNat
      (((stop - 1) / s.blockSize).toNat + 1 - (start / s.blockSize).toNat)) :
    index * s.blockSize.toNat < size.toNat := by
  rw [UInt64.lt_iff_toNat_lt] at hlt
  rw [UInt64.le_iff_toNat_le] at hle
  have hone : (1 : UInt64) ≤ stop := UInt64.le_iff_toNat_le.2 (Nat.succ_le_of_lt (by omega))
  rw [List.mem_range'_1, UInt64.toNat_div, UInt64.toNat_div, UInt64.toNat_sub_of_le _ _ hone,
    UInt64.toNat_one] at h
  have hmul := Nat.mul_le_mul_right s.blockSize.toNat
    (show index ≤ (stop.toNat - 1) / s.blockSize.toNat by omega)
  have := Nat.div_mul_le_self (stop.toNat - 1) s.blockSize.toNat
  omega

/-- A range that is not empty has an end to count back from. -/
theorem lt_stop_of_not_le {start length size : UInt64}
    (h : ¬ min (satAdd start length) size ≤ start) :
    start < min (satAdd start length) size ∧ 1 ≤ min (satAdd start length) size ∧
      min (satAdd start length) size ≤ size := by
  rw [UInt64.le_iff_toNat_le, Nat.not_le] at h
  refine ⟨UInt64.lt_iff_toNat_lt.2 h, UInt64.le_iff_toNat_le.2 ?_, UInt64.le_iff_toNat_le.2 ?_⟩
  · exact Nat.succ_le_of_lt ((Nat.zero_le _).trans_lt h)
  · rw [Block.toNat_min]
    exact Nat.min_le_right ..

/-- **The computed blocks** are the tiles from that of the first byte to that of the last one. -/
theorem blocksOf_eq (s : DiskStore) (size start length : UInt64) :
    s.blocksOf size start length =
      if min (start.toNat + length.toNat) size.toNat ≤ start.toNat then []
      else (List.range' (start.toNat / s.blockSize.toNat)
        ((min (start.toNat + length.toNat) size.toNat - 1) / s.blockSize.toNat + 1 -
          start.toNat / s.blockSize.toNat)).map
            (Block.tile s.hosts s.blockSize.toNat size.toNat) := by
  rw [← toNat_min_satAdd]
  simp only [blocksOf, UInt64.le_iff_toNat_le]
  split
  · rfl
  · rename_i h
    obtain ⟨hlt, hone, hle⟩ := lt_stop_of_not_le fun e => h (UInt64.le_iff_toNat_le.1 e)
    rw [List.map_congr_left fun index h => block_eq_tile (index_lt hlt hle h), UInt64.toNat_div,
      UInt64.toNat_div, UInt64.toNat_sub_of_le _ _ hone, UInt64.toNat_one]

/-- The computed blocks cover the part of the range that lies in the file. -/
theorem cover_blocksOf (hblock : 0 < s.blockSize) (size start length : UInt64) :
    Block.Cover (s.blocksOf size start length) start.toNat
      (min (start.toNat + length.toNat) size.toNat) := by
  rw [blocksOf_eq]
  split
  · rename_i hempty
    exact Block.cover_nil hempty
  · rename_i hlt
    exact Block.cover_tiles (UInt64.lt_iff_toNat_lt.1 hblock) size.toNat_lt (Nat.not_le.1 hlt)
      (Nat.min_le_right ..)

/-! ## Checked computation -/

/-- The block with the given index, unless its computation leaves the quantities. -/
def block? (s : DiskStore) (size index : UInt64) : Option Block := do
  let offset ← mulWithin? index s.blockSize
  let left ← subWithin? size offset
  return { hosts := s.hosts, offset, length := min s.blockSize left }

/-- The blocks of a file that meet a range, unless their computation leaves the quantities. -/
def blocksOf? (s : DiskStore) (size start length : UInt64) : Option (List Block) :=
  let stop := min (satAdd start length) size
  if stop ≤ start then some []
  else do
    let first ← divWithin? start s.blockSize
    let final ← subWithin? stop 1
    let last ← divWithin? final s.blockSize
    (List.range' first.toNat (last.toNat + 1 - first.toNat)).mapM fun index =>
      s.block? size (UInt64.ofNat index)

theorem block?_eq (hblock : 0 < s.blockSize) {index : Nat}
    (h : index * s.blockSize.toNat < size.toNat) :
    s.block? size (UInt64.ofNat index) = some (s.block size index) := by
  rw [UInt64.lt_iff_toNat_lt, UInt64.toNat_zero] at hblock
  have hsize := size.toNat_lt
  have hindex : (UInt64.ofNat index).toNat = index :=
    UInt64.toNat_ofNat_of_lt' (((Nat.le_mul_of_pos_right index hblock).trans_lt h).trans hsize)
  have hfits : index * s.blockSize.toNat ≤ largest := by
    rw [largest]
    omega
  have hle : UInt64.ofNat index * s.blockSize ≤ size := by
    rw [UInt64.le_iff_toNat_le, UInt64.toNat_mul, hindex, Nat.mod_eq_of_lt (h.trans hsize)]
    exact Nat.le_of_lt h
  simp only [block?, mulWithin?, hindex, hfits, if_true, subWithin?, block, Option.bind_eq_bind,
    Option.bind_some, hle]
  rfl

/-- **No operation leaves the quantities** while blocks are computed. -/
theorem blocksOf?_eq (hblock : 0 < s.blockSize) (size start length : UInt64) :
    s.blocksOf? size start length = some (s.blocksOf size start length) := by
  unfold blocksOf? blocksOf
  dsimp only
  split
  · rfl
  · rename_i h
    obtain ⟨hlt, hone, hle⟩ := lt_stop_of_not_le h
    have hne : s.blockSize ≠ 0 := by
      rintro h
      rw [h] at hblock
      exact absurd hblock (by decide)
    simp only [divWithin?, hne, if_false, subWithin?, hone, if_true, Option.bind_eq_bind,
      Option.bind_some]
    exact mapM_eq_some_map fun index h => block?_eq hblock (index_lt hlt hle h)

end DiskStore

/-! ## Kept blocks -/

namespace Catalog

/-- Blocks with different offsets are kept in the order of these, in whatever order they are
    given. -/
theorem blocks_putBlocks (c : Catalog) (path : Path) (size : UInt64) {bs sorted : List Block}
    (hperm : bs.Perm sorted) (hsorted : sorted.Pairwise fun b b' => b.offset < b'.offset)
    (start length : UInt64) :
    (c.putBlocks path size bs).blocks path start length =
      .ok (sorted.filter fun b => 0 < b.overlap start (Quantity.satAdd start length)) := by
  have hkept : bs.mergeSort (fun a b => a.offset ≤ b.offset) = sorted := by
    have hoffsets : (sorted.map Block.offset).Nodup :=
      List.pairwise_map.2 (hsorted.imp UInt64.ne_of_lt)
    refine ((List.mergeSort_perm bs _).trans hperm).eq_of_pairwise ?_
      (List.pairwise_mergeSort ?_ ?_ bs) (hsorted.imp fun h => decide_eq_true (UInt64.le_of_lt h))
    · intro a b ha hb hab hba
      rw [decide_eq_true_iff] at hab hba
      have ha' := hperm.subset ((List.mergeSort_perm bs _).subset ha)
      exact List.inj_on_of_nodup_map hoffsets ha' hb (UInt64.le_antisymm hab hba)
    · intro a b c hab hbc
      rw [decide_eq_true_iff] at hab hbc ⊢
      exact UInt64.le_trans hab hbc
    · intro a b
      rw [Bool.or_eq_true, decide_eq_true_iff, decide_eq_true_iff]
      exact UInt64.le_total ..
  have hobject : (c.putBlocks path size bs).object? path = some ⟨[], size, sorted⟩ := by
    rw [← hkept]
    exact Keyed.get?_put_self ..
  simp only [blocks, hobject]

end Catalog

namespace DiskStore

variable {s : DiskStore} {path : Path} {stat : Stat}

/-- **Computed and kept blocks agree.**  A catalog that was given the tiling of a file, in any
    order, answers every range as the disk store does that has the file: with the blocks that
    cover the part of the range in the file, and without an operation that leaves the quantities. -/
theorem blocks_eq_of_tiling (hblock : 0 < s.blockSize) (hstat : s.stat path = .ok stat)
    (c : Catalog) (other : Path) {bs : List Block}
    (hbs : bs.Perm (Block.tiling s.hosts s.blockSize.toNat stat.size.toNat))
    (start length : UInt64) :
    ∃ found, s.blocks path start length = .ok found ∧
      (c.putBlocks other stat.size bs).blocks other start length = .ok found ∧
      Block.Cover found start.toNat (min (start.toNat + length.toNat) stat.size.toNat) ∧
      s.blocksOf? stat.size start length = some found := by
  have hwidth := UInt64.lt_iff_toNat_lt.1 hblock
  refine ⟨s.blocksOf stat.size start length, ?_, ?_, cover_blocksOf hblock .., blocksOf?_eq hblock ..⟩
  · rw [blocks, hstat]
    rfl
  · rw [Catalog.blocks_putBlocks c other stat.size hbs
      (Block.pairwise_tiling hwidth stat.size.toNat_lt), Block.filter_tiling hwidth
      stat.size.toNat_lt, blocksOf_eq, ← Block.toNat_min, toNat_min_satAdd]

/-- Blocks of four bytes for a file of ten, asked for from the sixth byte to the largest offset, and
    kept from the last one to the first. -/
theorem blocks_eq_of_tiling_ten :
    let entries := [("f", Tree.file (List.replicate 10 0))]
    let s : DiskStore :=
      ⟨⟨"data"⟩, 8, 4, ["h"], ⟨.directory [("data", .directory entries)], [], rfl⟩⟩
    let bs := (Block.tiling ["h"] 4 10).reverse
    0 < s.blockSize ∧ s.stat ⟨"f"⟩ = .ok ⟨10, false, true⟩ ∧ bs.Perm (Block.tiling ["h"] 4 10) ∧
    ∃ found, s.blocks ⟨"f"⟩ 5 (UInt64.ofNat Quantity.largest) = .ok found ∧
      (Catalog.empty.putBlocks ⟨"g"⟩ 10 bs).blocks ⟨"g"⟩ 5 (UInt64.ofNat Quantity.largest) = .ok found := by
  intro entries s bs
  have hblock : 0 < s.blockSize := by decide
  have hstat : s.stat ⟨"f"⟩ = .ok ⟨10, false, true⟩ :=
    Sequence.toOption_eq_some_iff.1 (by decide +kernel)
  have hbs : bs.Perm (Block.tiling ["h"] 4 10) := List.reverse_perm _
  obtain ⟨found, hfound, hkept, -, -⟩ :=
    blocks_eq_of_tiling hblock hstat .empty ⟨"g"⟩ hbs 5 (UInt64.ofNat Quantity.largest)
  exact ⟨hblock, hstat, hbs, found, hfound, hkept⟩

end DiskStore

end Apportion
