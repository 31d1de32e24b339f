/-
  Files cut into blocks of one length, the last one of which may be shorter.

  * `Block.tiling`: all blocks of a file that is cut this way.
  * `Block.Cover`: blocks side by side that are just enough for a range of bytes.
  * `zero_lt_overlap_tile_iff`: which blocks of a tiling meet a range, told by their indices.
  * `filter_tiling`: those are the ones between the first and the last byte of the range.
  * `cover_tiles`: they cover it.
-/
import Apportion.Block
import Mathlib.Data.List.Chain
import Mathlib.Data.List.Range

namespace Apportion

namespace Block

/-! ## Covers -/

/-- Whether a block holds the byte at a position of its file. -/
def Holds (b : Block) (p : Nat) : Prop :=
  b.offset.toNat ≤ p ∧ p < b.offset.toNat + b.length.toNat

/-- Blocks that cover `[start, stop)`: in order of offset and without gaps they hold all its bytes,
    and each of them holds one. -/
structure Cover (bs : List Block) (start stop : Nat) : Prop where
  ordered : bs.Pairwise fun b b' => b.offset < b'.offset
  contiguous : bs.IsChain fun b b' => b.offset.toNat + b.length.toNat = b'.offset.toNat
  holds : ∀ p, start ≤ p → p < stop → ∃ b ∈ bs, b.Holds p
  meets : ∀ b ∈ bs, ∃ p, start ≤ p ∧ p < stop ∧ b.Holds p

theorem cover_nil {start stop : Nat} (h : stop ≤ start) : Cover [] start stop where
  ordered := .nil
  contiguous := .nil
  holds p hp hp' := by omega
  meets b hb := by cases hb

/-! ## Tilings -/

section
variable (hosts : List String) (width size : Nat)

/-- The block with the given index of a file that is cut into blocks of `width` bytes. -/
def tile (index : Nat) : Block where
  hosts
  offset := UInt64.ofNat (index * width)
  length := UInt64.ofNat (min width (size - index * width))

/-- The blocks of a file that is cut into blocks of `width` bytes: as many as have a byte. -/
def tiling : List Block := (List.range ((size + width - 1) / width)).map (tile hosts width size)

end

variable {hosts : List String} {width size index : Nat}

theorem lt_count_iff (hwidth : 0 < width) :
    index < (size + width - 1) / width ↔ index * width < size := by
  rw [← Nat.succ_le_iff, Nat.le_div_iff_mul_le hwidth, Nat.succ_mul]
  omega

theorem toNat_offset_tile (hsize : size < 2 ^ 64) (h : index * width < size) :
    (tile hosts width size index).offset.toNat = index * width :=
  UInt64.toNat_ofNat_of_lt' (h.trans hsize)

theorem toNat_length_tile (hsize : size < 2 ^ 64) :
    (tile hosts width size index).length.toNat = min width (size - index * width) :=
  UInt64.toNat_ofNat_of_lt' (show _ < 2 ^ 64 by omega)

theorem holds_tile_iff (hsize : size < 2 ^ 64) (h : index * width < size) {p : Nat} :
    (tile hosts width size index).Holds p ↔
      index * width ≤ p ∧ p < index * width + width ∧ p < size := by
  rw [Holds, toNat_offset_tile hsize h, toNat_length_tile hsize]
  omega

/-- Tiles lie in the order of their indices. -/
theorem offset_tile_lt (hwidth : 0 < width) (hsize : size < 2 ^ 64) {index' : Nat}
    (hlt : index < index') (h : index' * width < size) :
    (tile hosts width size index).offset < (tile hosts width size index').offset := by
  have hmul := Nat.mul_lt_mul_of_pos_right hlt hwidth
  rw [UInt64.lt_iff_toNat_lt, toNat_offset_tile hsize (hmul.trans h), toNat_offset_tile hsize h]
  exact hmul

/-- A tile meets a range iff it lies between the tiles of its first and its last byte. -/
theorem zero_lt_overlap_tile_iff (hwidth : 0 < width) (hsize : size < 2 ^ 64)
    (h : index * width < size) (start stop : UInt64) :
    0 < (tile hosts width size index).overlap start stop ↔
      start.toNat < min stop.toNat size ∧ start.toNat / width ≤ index ∧
        index ≤ (min stop.toNat size - 1) / width := by
  have hfirst : start.toNat / width ≤ index ↔ start.toNat < index * width + width := by
    rw [← Nat.lt_succ_iff, Nat.div_lt_iff_lt_mul hwidth, Nat.succ_mul]
  rw [hfirst, Nat.le_div_iff_mul_le hwidth, UInt64.lt_iff_toNat_lt, UInt64.toNat_zero, toNat_overlap,
    toNat_stop, toNat_offset_tile hsize h, toNat_length_tile hsize, Quantity.largest]
  omega

theorem filter_range {first last count : Nat} (h : last < count) :
    (List.range count).filter (fun index => first ≤ index ∧ index ≤ last) =
      List.range' first (last + 1 - first) := by
  have hperm : ((List.range count).filter fun index => first ≤ index ∧ index ≤ last).Perm
      (List.range' first (last + 1 - first)) := by
    refine (List.perm_ext_iff_of_nodup (List.nodup_range.filter _) List.nodup_range').2 fun index => ?_
    rw [List.mem_filter, List.mem_range, List.mem_range'_1, decide_eq_true_iff]
    omega
  exact hperm.eq_of_pairwise (fun _ _ _ _ hab hba => absurd hab (Nat.lt_asymm hba))
    (List.pairwise_lt_range.filter _) List.pairwise_lt_range'

/-- **The tiles that meet a range**: from that of its first byte to that of its last one. -/
theorem filter_tiling (hwidth : 0 < width) (hsize : size < 2 ^ 64) (start stop : UInt64) :
    (tiling hosts width size).filter (fun b => 0 < b.overlap start stop) =
      if min stop.toNat size ≤ start.toNat then []
      else (List.range' (start.toNat / width)
        ((min stop.toNat size - 1) / width + 1 - start.toNat / width)).map
          (tile hosts width size) := by
  have hmeets : ∀ index ∈ List.range ((size + width - 1) / width),
      decide (0 < (tile hosts width size index).overlap start stop) =
        decide (start.toNat < min stop.toNat size ∧ start.toNat / width ≤ index ∧
          index ≤ (min stop.toNat size - 1) / width) := fun index hindex =>
    decide_eq_decide.2 (zero_lt_overlap_tile_iff hwidth hsize
      ((lt_count_iff hwidth).1 (List.mem_range.1 hindex)) start stop)
  rw [tiling, List.filter_map, Function.comp_def, List.filter_congr hmeets]
  split
  · rename_i hempty
    simp only [Nat.not_lt.2 hempty, false_and, decide_false, List.filter_false, List.map_nil]
  · rename_i hrange
    -- the last byte lies in the file, and so does its tile
    have hlast : (min stop.toNat size - 1) / width < (size + width - 1) / width := by
      rw [lt_count_iff hwidth]
      have := Nat.div_mul_le_self (min stop.toNat size - 1) width
      omega
    simp only [Nat.not_le.1 hrange, true_and, filter_range hlast]

theorem pairwise_tiling (hwidth : 0 < width) (hsize : size < 2 ^ 64) :
    (tiling hosts width size).Pairwise fun b b' => b.offset < b'.offset := by
  rw [tiling, List.pairwise_map]
  refine List.pairwise_lt_range.imp_of_mem fun _ hj hlt => ?_
  exact offset_tile_lt hwidth hsize hlt ((lt_count_iff hwidth).1 (List.mem_range.1 hj))

/-- **The tiles between the first and the last byte of a range cover it.** -/
theorem cover_tiles (hwidth : 0 < width) (hsize : size < 2 ^ 64) {start stop : Nat}
    (hstart : start < stop) (hstop : stop ≤ size) :
    Cover ((List.range' (start / width) ((stop - 1) / width + 1 - start / width)).map
      (tile hosts width size)) start stop := by
  have hstart' := Nat.div_mul_le_self start width
  have hstop' := Nat.div_mul_le_self (stop - 1) width
  have hle : start / width ≤ (stop - 1) / width := Nat.div_le_div_right (by omega)
  -- what every index in between says about its tile
  have hindex : ∀ index ∈ List.range' (start / width) ((stop - 1) / width + 1 - start / width),
      index * width < stop ∧ start < index * width + width := by
    intro index h
    rw [List.mem_range'_1] at h
    have hlow := (Nat.div_lt_iff_lt_mul hwidth).1 (Nat.lt_succ_of_le h.1)
    have hhigh := Nat.mul_le_mul_right width (show index ≤ (stop - 1) / width by omega)
    rw [Nat.succ_mul] at hlow
    omega
  have hfits : ∀ index ∈ List.range' (start / width) ((stop - 1) / width + 1 - start / width),
      index * width < size := fun index h => (hindex index h).1.trans_le hstop
  refine ⟨?_, ?_, fun p hp hp' => ?_, fun b hb => ?_⟩
  · rw [List.pairwise_map]
    exact List.Pairwise.imp_of_mem
      (fun _ hj hlt => offset_tile_lt hwidth hsize hlt (hfits _ hj)) List.pairwise_lt_range'
  · rw [List.isChain_iff_getElem]
    intro k hk
    rw [List.length_map] at hk
    have hfit := hfits _ (List.getElem_mem (Nat.lt_of_succ_lt hk))
    have hfit' := hfits _ (List.getElem_mem hk)
    simp only [List.getElem_map, List.getElem_range', Nat.one_mul] at hfit hfit' ⊢
    rw [toNat_offset_tile hsize hfit, toNat_offset_tile hsize hfit', toNat_length_tile hsize]
    rw [← Nat.add_assoc, Nat.succ_mul] at hfit' ⊢
    omega
  · have hp₁ := Nat.div_mul_le_self p width
    have hp₂ := (Nat.div_lt_iff_lt_mul hwidth).1 (Nat.lt_succ_self (p / width))
    have hfirst : start / width ≤ p / width := Nat.div_le_div_right hp
    have hlast : p / width ≤ (stop - 1) / width := Nat.div_le_div_right (by omega)
    rw [Nat.succ_mul] at hp₂
    refine ⟨_, List.mem_map_of_mem (List.mem_range'_1.2 (by omega : _ ∧ p / width < _)), ?_⟩
    rw [holds_tile_iff hsize (by omega)]
    omega
  · obtain ⟨index, h, rfl⟩ := List.mem_map.1 hb
    have hrange := hindex index h
    refine ⟨max start (index * width), le_max_left .., by omega, ?_⟩
    rw [holds_tile_iff hsize (hfits index h)]
    omega

end Block

end Apportion
