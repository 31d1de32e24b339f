/-
  Which hosts hold the data of descriptors on a disk store, where every file is tiled.

  * `Block.bytesFor_tiling`: whatever the width of the tiles, a host has all bytes of a range that
    are in the file, once for each time it is listed.
  * `Block.eraseDups_hostsIn_tiling`: and hosts come up in the order listed, if there is a byte.
  * `DiskStore.layout`: the tilings of all files.
  * `DiskStore.held`: the bytes in the range of a descriptor that its file really has.
  * `rangeBytes_layout`, `eraseDups_creditedHosts_layout`: both facts, told with `held`.
-/
import Apportion.Proofs.Disk.Blocks
import Apportion.Proofs.Disk.Saving
import Apportion.Proofs.Locality.FirstSeen
import Mathlib.Algebra.BigOperators.Ring.List
import Mathlib.Algebra.Ring.Nat

namespace Apportion

namespace Block

open Quantity

section
variable {hosts : List String} {width size : Nat}

/-! ## Tiles -/

theorem card_positions_tile (hsize : size < 2 ^ 64) {index : Nat} (h : index * width < size)
    (start stop : Nat) : ((tile hosts width size index).positions start stop).card =
      min stop (min size ((index + 1) * width)) - max start (index * width) := by
  have hend : min (index * width + min width (size - index * width)) largest =
      min size ((index + 1) * width) := by
    rw [largest, Nat.succ_mul]
    omega
  rw [positions, Finset.Ico_inter_Ico, Nat.card_Ico, toNat_offset_tile hsize h,
    toNat_length_tile hsize, hend]

theorem bytesFor_append (host : String) (start stop : Nat) (bs bs' : List Block) :
    bytesFor host start stop (bs ++ bs') =
      bytesFor host start stop bs + bytesFor host start stop bs' := by
  simp only [bytesFor, List.map_append, List.sum_append]

/-- The first tiles hold the part of a range in front of the next one. -/
theorem bytesFor_first_tiles (hwidth : 0 < width) (hsize : size < 2 ^ 64) (host : String)
    (start stop : Nat) {n : Nat} (hn : n ≤ (size + width - 1) / width) :
    bytesFor host start stop ((List.range n).map (tile hosts width size)) =
      hosts.count host * (min stop (min size (n * width)) - start) := by
  induction n with
  | zero => simp [bytesFor]
  | succ n ih =>
    have hfits : n * width < size := (lt_count_iff hwidth).1 hn
    have hnext : bytesFor host start stop [tile hosts width size n] =
        hosts.count host * (min stop (min size ((n + 1) * width)) - max start (n * width)) := by
      rw [bytesFor, List.map_singleton, List.sum_singleton, card_positions_tile hsize hfits]
      rfl
    rw [List.range_succ, List.map_append, bytesFor_append, ih (Nat.le_of_succ_le hn),
      List.map_singleton, hnext, ← Nat.mul_add]
    congr 1
    rw [Nat.succ_mul]
    omega

/-- **The width of tiles does not matter**: a host has all bytes of a range that are in the file,
    once for each time it is listed. -/
theorem bytesFor_tiling (hwidth : 0 < width) (hsize : size < 2 ^ 64) (host : String)
    (start stop : Nat) : bytesFor host start stop (tiling hosts width size) =
      hosts.count host * (min stop size - start) := by
  have hall : size ≤ (size + width - 1) / width * width :=
    Nat.not_lt.1 fun h => Nat.lt_irrefl _ ((lt_count_iff hwidth).2 h)
  rw [tiling, bytesFor_first_tiles hwidth hsize host start stop (Nat.le_refl _),
    Nat.min_eq_left hall]

theorem eraseDups_hostsIn_tiling (hwidth : 0 < width) (hsize : size < 2 ^ 64)
    (start stop : UInt64) : (hostsIn start stop (tiling hosts width size)).eraseDups =
      if min stop.toNat size ≤ start.toNat then [] else hosts.eraseDups := by
  rw [hostsIn, filter_tiling hwidth hsize]
  split
  · rfl
  · rename_i h
    have hle : start.toNat / width ≤ (min stop.toNat size - 1) / width :=
      Nat.div_le_div_right (by omega)
    -- all tiles have the same hosts, and there is one
    obtain ⟨n, hn⟩ : ∃ n, (min stop.toNat size - 1) / width + 1 - start.toNat / width = n + 1 :=
      ⟨(min stop.toNat size - 1) / width - start.toNat / width, by omega⟩
    rw [hn, List.range'_succ, List.map_cons, List.flatMap_cons]
    refine eraseDups_append_of_subset fun a ha => ?_
    obtain ⟨b, hb, ha⟩ := List.mem_flatMap.1 ha
    obtain ⟨index, -, rfl⟩ := List.mem_map.1 hb
    exact ha

end

end Block

namespace DiskStore

open Locality Quantity

variable {s : DiskStore} {d : Descriptor}

/-! ## Files -/

/-- Blocks have at least one byte. -/
theorem zero_lt_blockSize_on (settings : StorageSettings) (disk : Disk) :
    0 < (on settings disk).blockSize := by
  rw [UInt64.lt_iff_toNat_lt, UInt64.toNat_zero]
  change 0 < (max settings.blockSize 1).toNat
  rw [Block.toNat_max]
  exact lt_max_of_lt_right (by decide)

/-- The blocks of the file that a source names. -/
def layout (s : DiskStore) (source : String) : List Block :=
  (s.stat ⟨source⟩).toOption.elim [] fun stat =>
    Block.tiling s.hosts s.blockSize.toNat stat.size.toNat

theorem layout_of_stat {source : String} {stat : Stat} (h : s.stat ⟨source⟩ = .ok stat) :
    s.layout source = Block.tiling s.hosts s.blockSize.toNat stat.size.toNat := by
  rw [layout, h]
  rfl

theorem layout_of_error {source : String} {failure : Failure}
    (h : s.stat ⟨source⟩ = .error failure) : s.layout source = [] := by
  rw [layout, h]
  rfl

section
variable {source : String} {stat : Stat} (hblock : 0 < s.blockSize)
  (hstat : s.stat ⟨source⟩ = .ok stat)
include hblock hstat

theorem bytesFor_layout (host : String) (start stop : Nat) :
    Block.bytesFor host start stop (s.layout source) =
      s.hosts.count host * (min stop stat.size.toNat - start) := by
  rw [layout_of_stat hstat,
    Block.bytesFor_tiling (UInt64.lt_iff_toNat_lt.1 hblock) stat.size.toNat_lt]

theorem eraseDups_hostsIn_layout (start stop : UInt64) :
    (Block.hostsIn start stop (s.layout source)).eraseDups =
      if min stop.toNat stat.size.toNat ≤ start.toNat then [] else s.hosts.eraseDups := by
  rw [layout_of_stat hstat,
    Block.eraseDups_hostsIn_tiling (UInt64.lt_iff_toNat_lt.1 hblock) stat.size.toNat_lt]

end

theorem laidOut (hblock : 0 < s.blockSize) : LaidOut s s.layout := by
  intro source start stop bs hlt hbs
  obtain ⟨stat, hstat, h⟩ := Sequence.bind_eq_ok_iff.1
    (show s.blocks ⟨source⟩ start (stop - start) = .ok bs from hbs)
  cases h
  have hstop : start.toNat + (stop - start).toNat = stop.toNat := by
    rw [UInt64.toNat_sub_of_le _ _ (UInt64.le_of_lt hlt)]
    exact Nat.add_sub_of_le (UInt64.le_iff_toNat_le.1 (UInt64.le_of_lt hlt))
  rw [layout_of_stat hstat, Block.filter_tiling (UInt64.lt_iff_toNat_lt.1 hblock)
    stat.size.toNat_lt, blocksOf_eq, hstop]

/-- The bytes in the range of a descriptor that its file really has; none without a file to
    read. -/
def held (s : DiskStore) (d : Descriptor) : Octets :=
  match d.source with
  | none => []
  | some source =>
    match stopOf s source d, Store.read s ⟨source⟩ with
    | .ok stop, .ok content => (content.take stop.toNat).drop d.start.toNat
    | _, _ => []

/-- Where no directory is there is a file, or nothing that could be asked. -/
theorem file_or_refused {path : Path} (h : s.disk.isDirectory (s.full path) = false) :
    (∃ content, s.stat path = .ok ⟨clamp content.length, false, true⟩ ∧
      Store.read s path = .ok content) ∨
    (∃ failure, s.stat path = .error failure) ∧ ∃ failure, Store.read s path = .error failure := by
  cases hlocate : s.disk.locate (s.full path) with
  | error error =>
    have hstat : s.stat path =
        .error (.ofSystem (s.full path) "failed to read metadata" error) := by
      simp only [stat, hlocate]
    refine Or.inr ⟨⟨_, hstat⟩, ?_⟩
    cases hread : Store.read s path with
    | error failure => exact ⟨failure, rfl⟩
    | ok content =>
      obtain ⟨loc, hfile⟩ := read_eq_ok_iff.1 hread
      cases hlocate.symm.trans hfile
  | ok found =>
    obtain ⟨loc, k⟩ := found
    cases k with
    | directory =>
      simp only [Disk.isDirectory, hlocate] at h
      cases h
    | file content =>
      exact Or.inl ⟨content, by simp only [stat, hlocate], read_eq_ok_iff.2 ⟨loc, hlocate⟩⟩

/-- No source of these descriptors is a directory. -/
def NoDirectory (s : DiskStore) (ds : List Descriptor) : Prop :=
  ∀ d ∈ ds, ∀ source, d.source = some source → s.disk.isDirectory (s.full ⟨source⟩) = false

/-- What a descriptor whose source is no directory can be about. -/
theorem held_cases (h : s.NoDirectory [d]) :
    (s.held d = [] ∧ (∀ host, rangeBytes s s.layout host d = 0) ∧
      creditedHosts s s.layout d = []) ∨
    ∃ source stop stat, d.source = some source ∧ stopOf s source d = .ok stop ∧
      s.stat ⟨source⟩ = .ok stat ∧
      (s.held d).length = min stop.toNat stat.size.toNat - d.start.toNat := by
  cases hsource : d.source with
  | none =>
    exact Or.inl ⟨by simp only [held, hsource], fun host => rangeBytes_of_none host hsource,
      creditedHosts_of_none hsource⟩
  | some source =>
    cases hstop : stopOf s source d with
    | error failure =>
      refine Or.inl ⟨?_, fun host => ?_, ?_⟩
      · simp only [held, hsource, hstop]
      · simp only [rangeBytes, hsource, hstop]
      · simp only [creditedHosts, hsource, hstop]
    | ok stop =>
      rcases file_or_refused (h d (List.mem_singleton_self d) source hsource) with
        ⟨content, hstat, hread⟩ | ⟨⟨failure, hstat⟩, ⟨failure', hread⟩⟩
      · refine Or.inr ⟨source, stop, _, rfl, hstop, hstat, ?_⟩
        have hstop' : stop.toNat ≤ largest := Nat.le_pred_of_lt stop.toNat_lt
        simp only [held, hsource, hstop, hread, List.length_drop, List.length_take, toNat_clamp]
        omega
      · have hlayout := layout_of_error hstat
        refine Or.inl ⟨?_, fun host => ?_, ?_⟩
        · simp only [held, hsource, hstop, hread]
        · rw [rangeBytes_of_stop host hsource hstop, hlayout]
          rfl
        · rw [creditedHosts_of_stop hsource hstop, hlayout]
          rfl

theorem rangeBytes_layout (hblock : 0 < s.blockSize) (h : s.NoDirectory [d]) (host : String) :
    rangeBytes s s.layout host d = s.hosts.count host * (s.held d).length := by
  rcases held_cases h with ⟨hheld, hbytes, -⟩ | ⟨source, stop, stat, hsource, hstop, hstat, hheld⟩
  · rw [hbytes, hheld, List.length_nil, Nat.mul_zero]
  · rw [rangeBytes_of_stop host hsource hstop, bytesFor_layout hblock hstat, hheld]

theorem eraseDups_creditedHosts_layout (hblock : 0 < s.blockSize) (h : s.NoDirectory [d]) :
    (creditedHosts s s.layout d).eraseDups = if s.held d = [] then [] else s.hosts.eraseDups := by
  rcases held_cases h with ⟨hheld, -, hhosts⟩ | ⟨source, stop, stat, hsource, hstop, hstat, hheld⟩
  · rw [hhosts, if_pos hheld]
    rfl
  · rw [creditedHosts_of_stop hsource hstop, eraseDups_hostsIn_layout hblock hstat]
    refine if_congr ?_ rfl rfl
    rw [← List.length_eq_zero_iff, hheld]
    omega

theorem NoDirectory.of_mem {ds : List Descriptor} (h : s.NoDirectory ds) (hd : d ∈ ds) :
    s.NoDirectory [d] := by
  intro d' hd' source hsource
  rw [List.mem_singleton.1 hd'] at hsource
  exact h d hd source hsource

/-- A host holds all bytes that are held, once for each time it is listed. -/
theorem byteSum_layout (hblock : 0 < s.blockSize) {ds : List Descriptor} (h : s.NoDirectory ds)
    (host : String) : byteSum s s.layout host ds =
      s.hosts.count host * (ds.map fun d => (s.held d).length).sum := by
  rw [byteSum, List.map_congr_left fun d hd => rangeBytes_layout hblock (h.of_mem hd) host]
  exact List.sum_map_mul_left ds _ _

end DiskStore

end Apportion
