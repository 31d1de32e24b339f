/-
  Settings whose hosts are pairwise different give shares of the whole.

  * `hosts_ne_nil`: settings that are accepted have a host, but they may list one twice.
  * `heldSum_le`: files have no more bytes in the ranges of descriptors than the ranges are long.
  * `shares_of_distinct_hosts`: every host is credited once with all bytes that the files have in
    the ranges, so that its share is above zero and at most one.
  * `share_of_host_listed_twice`: a host that is listed twice has twice the share.
-/
import Apportion.Proofs.Locality.Tiled
import Mathlib.Algebra.Order.BigOperators.Group.List
import Mathlib.Algebra.Order.Field.Basic
import Mathlib.Data.Rat.Cast.Order

namespace Apportion

/-- Settings that are accepted have a host. -/
theorem Settings.hosts_ne_nil {settings : Settings} (h : settings.validate = .ok ()) :
    settings.storage.hosts ≠ [] := by
  intro hnil
  simp only [validate, unfit, hnil, if_true] at h
  split at h
  · cases h
  · split at h <;> cases h

namespace DiskStore

open Locality

variable {s : DiskStore}

theorem length_held_le {d : Descriptor} (h : s.NoDirectory [d]) :
    (s.held d).length ≤ rangeLength s d := by
  rcases held_cases h with ⟨hheld, -, -⟩ | ⟨source, stop, stat, hsource, hstop, -, hheld⟩
  · rw [hheld]
    exact Nat.zero_le _
  · rw [hheld, rangeLength_of_stop hsource hstop]
    omega

/-- The files have no more bytes in the ranges than the ranges are long. -/
theorem heldSum_le {ds : List Descriptor} (h : s.NoDirectory ds) :
    (ds.map fun d => (s.held d).length).sum ≤ lengthSum s ds :=
  List.sum_le_sum fun _ hd => length_held_le (h.of_mem hd)

end DiskStore

namespace Locality

/-- **Pairwise different hosts have shares of the whole.**  With settings that are accepted and
    list no host twice, each host is credited with all bytes that the files have in the ranges, each
    byte of a range once; if there are any, a host is credited, and every share is above zero and at
    most one. -/
theorem shares_of_distinct_hosts {settings : Settings} (hvalid : settings.validate = .ok ())
    (hdistinct : settings.storage.hosts.Nodup) (disk : Disk) {ds : List Descriptor} {t : Tally}
    (hfiles : (DiskStore.on settings.storage disk).NoDirectory ds)
    (ht : accumulate (DiskStore.on settings.storage disk) ds = .ok t) :
    let bytes := (ds.map fun d => ((DiskStore.on settings.storage disk).held d).length).sum
    (∀ host, (t.get? host).map UInt64.toNat =
      if host ∈ settings.storage.hosts ∧ bytes ≠ 0 then some bytes else none) ∧
    (bytes ≠ 0 → ∃ host share, t.get? host = some share) ∧
    ∀ host share, t.get? host = some share → share ≤ t.total ∧
      0 < (share.toNat : ℚ) / t.total.toNat ∧ (share.toNat : ℚ) / t.total.toNat ≤ 1 := by
  intro bytes
  have hblock := DiskStore.zero_lt_blockSize_on settings.storage disk
  have hcounted := counted_of_accumulate (DiskStore.laidOut hblock) ht
  have hcredited : ∀ host, (t.get? host).map UInt64.toNat =
      if host ∈ settings.storage.hosts ∧ bytes ≠ 0 then some bytes else none := by
    intro host
    have hcount : (DiskStore.on settings.storage disk).hosts.count host =
        if host ∈ settings.storage.hosts then 1 else 0 := hdistinct.count
    rw [hcounted.get?_eq, DiskStore.byteSum_layout hblock hfiles, hcount]
    by_cases hhost : host ∈ settings.storage.hosts <;> by_cases hbytes : bytes = 0 <;>
      simp [hhost, hbytes, bytes]
  refine ⟨hcredited, fun hbytes => ?_, fun host share hshare => ?_⟩
  · obtain ⟨host, hhost⟩ := List.exists_mem_of_ne_nil _ (Settings.hosts_ne_nil hvalid)
    have hsome := hcredited host
    rw [if_pos ⟨hhost, hbytes⟩, Option.map_eq_some_iff] at hsome
    obtain ⟨share, hshare, -⟩ := hsome
    exact ⟨host, share, hshare⟩
  · have hsome := hcredited host
    rw [hshare, Option.map_some] at hsome
    split at hsome
    · rename_i hheld
      have heq : share.toNat = bytes := Option.some.inj hsome
      have hle : share.toNat ≤ t.total.toNat := by
        rw [heq, hcounted.total_eq]
        exact DiskStore.heldSum_le hfiles
      have hpos : 0 < share.toNat := heq ▸ Nat.pos_of_ne_zero hheld.2
      have hpos' : (0 : ℚ) < share.toNat := Nat.cast_pos.2 hpos
      have hle' : (share.toNat : ℚ) ≤ t.total.toNat := Nat.cast_le.2 hle
      exact ⟨UInt64.le_iff_toNat_le.2 hle, div_pos hpos' (hpos'.trans_le hle'),
        (div_le_one (hpos'.trans_le hle')).2 hle'⟩
    · cases hsome

/-- Two hosts for a file of ten bytes, and ranges that overlap and reach behind its end. -/
theorem shares_of_distinct_hosts_ten :
    let settings : Settings := { storage := ⟨⟨"data"⟩, 8, 4, ["a", "b"]⟩ }
    let disk : Disk :=
      ⟨.directory [("data", .directory [("f", .file (List.replicate 10 0))])], [], rfl⟩
    let ds : List Descriptor := [⟨some "f", 3, some 20, .empty⟩, ⟨some "f", 8, none, .empty⟩]
    let s := DiskStore.on settings.storage disk
    settings.validate = .ok () ∧ settings.storage.hosts.Nodup ∧ s.NoDirectory ds ∧
      ∃ t, accumulate s ds = .ok t ∧ t.total = 19 ∧
        (t.get? "a").map UInt64.toNat = some 9 ∧ (t.get? "b").map UInt64.toNat = some 9 := by
  intro settings disk ds s
  have hvalid : settings.validate = .ok () := Sequence.toOption_eq_some_iff.1 (by decide +kernel)
  have hdistinct : settings.storage.hosts.Nodup := by decide
  have hfiles : s.NoDirectory ds := by
    intro d hd source hsource
    simp only [ds, List.mem_cons, List.not_mem_nil, or_false] at hd
    rcases hd with rfl | rfl <;> cases hsource <;> decide +kernel
  have htotal : (accumulate s ds).toOption.map Tally.total = some 19 := by decide +kernel
  obtain ⟨t, ht, htotal⟩ := Option.map_eq_some_iff.1 htotal
  rw [Sequence.toOption_eq_some_iff] at ht
  obtain ⟨hcredited, -⟩ := shares_of_distinct_hosts hvalid hdistinct disk hfiles ht
  exact ⟨hvalid, hdistinct, hfiles, t, ht, htotal, (hcredited "a").trans (by decide +kernel),
    (hcredited "b").trans (by decide +kernel)⟩

/-- **A host that is listed twice has twice the share.**  The settings are accepted, and the host is
    credited with more bytes than the range has. -/
theorem share_of_host_listed_twice :
    let settings : Settings := { storage := ⟨⟨"data"⟩, 8, 4, ["a", "a"]⟩ }
    let disk : Disk :=
      ⟨.directory [("data", .directory [("f", .file [0x00, 0x11, 0x22, 0x33])])], [], rfl⟩
    let ds : List Descriptor := [⟨some "f", 0, none, .empty⟩]
    let s := DiskStore.on settings.storage disk
    settings.validate = .ok () ∧ s.NoDirectory ds ∧
      ∃ t, accumulate s ds = .ok t ∧ t.total = 4 ∧ t.get? "a" = some 8 := by
  intro settings disk ds s
  have hvalid : settings.validate = .ok () := Sequence.toOption_eq_some_iff.1 (by decide +kernel)
  have hfiles : s.NoDirectory ds := by
    intro d hd source hsource
    cases List.mem_singleton.1 hd
    cases hsource
    decide +kernel
  have hcounted : (accumulate s ds).toOption.map (fun t => (t.total, t.get? "a")) =
      some (4, some 8) := by decide +kernel
  obtain ⟨t, ht, htold⟩ := Option.map_eq_some_iff.1 hcounted
  exact ⟨hvalid, hfiles, t, Sequence.toOption_eq_some_iff.1 ht, Prod.mk.inj htold⟩

end Locality

end Apportion
