/-
  The sizes of blocks and buffers do not matter for which hosts hold data.

  * `resized`: the store with other sizes.
  * `alike_resized`, `eraseDups_creditedHosts_resized`: accumulating finds no difference, also in
    the order in which hosts come up.
  * `accumulate_of_block_size`: so it answers the same, and every host holds all bytes that the
    files really have in the ranges.
-/
import Apportion.Proofs.Locality.Alike
import Apportion.Proofs.Locality.Tiled

namespace Apportion

namespace DiskStore

open Locality

/-- The store with blocks and buffers of other sizes. -/
def resized (s : DiskStore) (blockSize bufferSize : UInt64) : DiskStore :=
  { s with blockSize, bufferSize }

variable {s : DiskStore} {blockSize bufferSize : UInt64}

theorem stopOf_resized (source : String) (d : Descriptor) :
    stopOf (s.resized blockSize bufferSize) source d = stopOf s source d := rfl

theorem stat_resized (path : Path) :
    (s.resized blockSize bufferSize).stat path = s.stat path := rfl

theorem blocks_resized (path : Path) (start length : UInt64) :
    ((s.resized blockSize bufferSize).blocks path start length).map (fun _ => ()) =
      (s.blocks path start length).map fun _ => () := by
  simp only [blocks, stat_resized]
  cases s.stat path <;> rfl

variable (hblock : 0 < s.blockSize) (hblock' : 0 < blockSize)
include hblock hblock'

theorem bytesFor_layout_resized (source host : String) (start stop : Nat) :
    Block.bytesFor host start stop (s.layout source) =
      Block.bytesFor host start stop ((s.resized blockSize bufferSize).layout source) := by
  cases hstat : s.stat ⟨source⟩ with
  | error failure =>
    rw [layout_of_error hstat, layout_of_error ((stat_resized _).trans hstat)]
  | ok stat =>
    have hstat' : (s.resized blockSize bufferSize).stat ⟨source⟩ = .ok stat := hstat
    rw [bytesFor_layout hblock hstat, bytesFor_layout hblock' hstat']
    rfl

theorem alike_resized : Alike s s.layout (s.resized blockSize bufferSize)
    (s.resized blockSize bufferSize).layout where
  stop source d := (stopOf_resized source d).symm
  bytes := bytesFor_layout_resized hblock hblock'
  told source start length := (blocks_resized ⟨source⟩ start length).symm

theorem eraseDups_creditedHosts_resized (d : Descriptor) :
    (creditedHosts s s.layout d).eraseDups =
      (creditedHosts (s.resized blockSize bufferSize)
        (s.resized blockSize bufferSize).layout d).eraseDups := by
  simp only [creditedHosts, stopOf_resized]
  cases d.source with
  | none => rfl
  | some source =>
    dsimp only
    cases stopOf s source d with
    | error failure => rfl
    | ok stop =>
      dsimp only
      cases hstat : s.stat ⟨source⟩ with
      | error failure =>
        rw [layout_of_error hstat, layout_of_error ((stat_resized _).trans hstat)]
      | ok stat =>
        have hstat' : (s.resized blockSize bufferSize).stat ⟨source⟩ = .ok stat := hstat
        rw [eraseDups_hostsIn_layout hblock hstat, eraseDups_hostsIn_layout hblock' hstat']
        rfl

theorem accumulate_resized (ds : List Descriptor) :
    accumulate s ds = accumulate (s.resized blockSize bufferSize) ds := by
  have halike : Alike s s.layout (s.resized blockSize bufferSize)
      (s.resized blockSize bufferSize).layout := alike_resized hblock hblock'
  have hl := laidOut hblock
  have hl' : LaidOut (s.resized blockSize bufferSize) (s.resized blockSize bufferSize).layout :=
    laidOut hblock'
  cases h : accumulate s ds with
  | error failure => exact (halike.accumulate_error hl hl' h).symm
  | ok t =>
    obtain ⟨t', h'⟩ := (halike.exists_accumulate hl hl' (.refl ds)).1 ⟨t, h⟩
    have heq : t = t' := tally_eq hl hl' h h' (halike.lengthSum_eq (.refl ds))
      (halike.byteSum_eq (.refl ds))
      (eraseDups_flatMap_congr fun d _ => eraseDups_creditedHosts_resized hblock hblock' d)
    rw [h', heq]

end DiskStore

namespace Locality

/-- **The sizes of blocks and buffers do not matter.**  Stores on one disk that differ in nothing
    else accumulate alike: to the same tally, order included, or to the same failure.  If no
    source is a directory, a host holds all the bytes that the files really have in the ranges,
    once for each time it is listed, and is not in the tally if there are none. -/
theorem accumulate_of_block_size (settings : StorageSettings) (blockSize bufferSize : UInt64)
    (disk : Disk) (ds : List Descriptor) :
    accumulate (DiskStore.on settings disk) ds =
      accumulate (DiskStore.on { settings with blockSize, bufferSize } disk) ds ∧
    ∀ t, (DiskStore.on settings disk).NoDirectory ds →
      accumulate (DiskStore.on settings disk) ds = .ok t → ∀ host,
        (t.get? host).map UInt64.toNat =
          let bytes := settings.hosts.count host *
            (ds.map fun d => ((DiskStore.on settings disk).held d).length).sum
          if bytes = 0 then none else some bytes := by
  have hblock := DiskStore.zero_lt_blockSize_on settings disk
  refine ⟨?_, fun t hfiles ht host => ?_⟩
  · have hblock' := DiskStore.zero_lt_blockSize_on { settings with blockSize, bufferSize } disk
    exact DiskStore.accumulate_resized hblock hblock' ds
  · rw [(counted_of_accumulate (DiskStore.laidOut hblock) ht).get?_eq,
      DiskStore.byteSum_layout hblock hfiles]
    rfl

/-- A host listed twice and another one, blocks of four bytes and of the least size, for a file of
    ten bytes and a missing one: six bytes and the last two. -/
theorem accumulate_of_block_size_ten :
    let entries := [("f", Tree.file (List.replicate 10 0))]
    let disk : Disk := ⟨.directory [("data", .directory entries)], [], rfl⟩
    let settings : StorageSettings := ⟨⟨"data"⟩, 8, 4, ["a", "b", "a"]⟩
    let ds : List Descriptor := [⟨some "f", 3, some 9, .empty⟩, ⟨some "gone", 5, some 5, .empty⟩,
      ⟨some "f", 8, none, .empty⟩]
    (DiskStore.on settings disk).NoDirectory ds ∧
      ∃ t, accumulate (DiskStore.on { settings with blockSize := 0, bufferSize := 1 } disk) ds =
          .ok t ∧
        (t.get? "a").map UInt64.toNat = some 16 ∧ (t.get? "b").map UInt64.toNat = some 8 := by
  intro entries disk settings ds
  obtain ⟨hsame, hbytes⟩ := accumulate_of_block_size settings 0 1 disk ds
  have hfiles : (DiskStore.on settings disk).NoDirectory ds := by
    intro d hd source hsource
    simp only [ds, List.mem_cons, List.not_mem_nil, or_false] at hd
    rcases hd with rfl | rfl | rfl <;> cases hsource <;> decide +kernel
  obtain ⟨t, ht⟩ : ∃ t, accumulate (DiskStore.on settings disk) ds = .ok t :=
    Sequence.exists_eq_ok_iff.2 (by decide +kernel)
  refine ⟨hfiles, t, hsame ▸ ht, ?_, ?_⟩
  · exact (hbytes t hfiles ht "a").trans (by decide +kernel)
  · exact (hbytes t hfiles ht "b").trans (by decide +kernel)

end Locality

end Apportion
