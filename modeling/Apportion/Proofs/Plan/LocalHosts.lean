/-
  The hosts of splits that are planned over a disk store.

  * `preferredHosts_of_held`: hosts that are told apart hold equally many bytes, so that all of
    them are preferred or, if no byte is held, none.
  * `eraseDups_estimates`: the same for the references of a split.
  * `hosts_of_splits`: a split has all hosts in the order of the settings iff one of its
    references is about a byte that its file really has, and no host otherwise.
-/
import Apportion.Proofs.Locality.Tiled
import Apportion.Proofs.Plan.Delivery

namespace Apportion

namespace Plan

open Locality

variable {s : DiskStore} {settings : LocalitySettings} {resolver : Resolver}

/-! ## One list of descriptors -/

/-- Hosts that are listed once each hold all bytes that are held. -/
theorem bytes_of_accumulate (hblock : 0 < s.blockSize) (hdistinct : s.hosts.Nodup)
    {ds : List Descriptor} (hfiles : s.NoDirectory ds) {t : Tally} (ht : accumulate s ds = .ok t)
    {host : String} {bytes : UInt64} (hheld : t.get? host = some bytes) :
    bytes.toNat = (ds.map fun d => (s.held d).length).sum := by
  have hcounted := counted_of_accumulate (DiskStore.laidOut hblock) ht
  have hbytes := hcounted.toNat_eq hheld
  rw [DiskStore.byteSum_layout hblock hfiles] at hbytes
  -- a host that is not listed holds nothing, and who holds nothing is not in the tally
  have hlisted : host ∈ s.hosts := by
    by_contra hnot
    have hnone := hcounted.get?_eq host
    rw [hheld, DiskStore.byteSum_layout hblock hfiles,
      List.count_eq_zero_of_not_mem hnot, Nat.zero_mul, if_pos rfl] at hnone
    cases hnone
  rw [hbytes, List.count_eq_one_of_mem hdistinct hlisted, Nat.one_mul]

/-- **All hosts are preferred**, in the order listed, or none if no byte is held. -/
theorem preferredHosts_of_held (hblock : 0 < s.blockSize) (hdistinct : s.hosts.Nodup)
    (hleast : 1 ≤ settings.leastHosts) {ds : List Descriptor} (hfiles : s.NoDirectory ds)
    {hosts : List String} (h : preferredHosts settings s ds = .ok hosts) :
    hosts = if ∀ d ∈ ds, s.held d = [] then [] else s.hosts := by
  obtain ⟨t, ht, rfl⟩ := Sequence.map_eq_ok_iff.1 h
  have hkeys : t.shares.keys = if ∀ d ∈ ds, s.held d = [] then [] else s.hosts := by
    rw [keys_of_accumulate (DiskStore.laidOut hblock) ht, eraseDups_flatMap_ite fun d hd =>
      DiskStore.eraseDups_creditedHosts_layout hblock (hfiles.of_mem hd),
      eraseDups_of_nodup hdistinct]
  have hequal : ∀ e ∈ t.shares.entries,
      e.2 = UInt64.ofNat (ds.map fun d => (s.held d).length).sum := by
    rintro ⟨host, bytes⟩ he
    rw [← bytes_of_accumulate hblock hdistinct hfiles ht (Tally.mem_shares_iff.1 he),
      UInt64.ofNat_toNat]
  have hleast' : 0 < settings.leastHosts.toNat := UInt64.le_iff_toNat_le.1 hleast
  rw [← hkeys]
  exact Tally.leaders_of_equal hequal hleast' settings.threshold

/-! ## The references of a split -/

/-- A reference leads to descriptors, and for one of them a byte is held. -/
def HasData (s : DiskStore) (resolver : Resolver) (reference : String) : Prop :=
  ∃ ds, resolver reference = .ok ds ∧ ∃ d ∈ ds, s.held d ≠ []

/-- No descriptor that these references lead to has a directory as its source. -/
def NoDirectory (s : DiskStore) (resolver : Resolver) (references : List String) : Prop :=
  ∀ r ∈ references, ∀ ds, resolver r = .ok ds → s.NoDirectory ds

section
variable (hblock : 0 < s.blockSize) (hdistinct : s.hosts.Nodup)
  (hleast : 1 ≤ settings.leastHosts) {references : List String} {estimates : List (List String)}
  (hfiles : NoDirectory s resolver references)
  (h : List.Forall₂ (Estimated settings resolver s) references estimates)
include hblock hdistinct hleast hfiles h

open Classical in
theorem flatten_estimates : estimates.flatten =
    references.flatMap fun r => if ¬HasData s resolver r then [] else s.hosts := by
  induction h with
  | nil => rfl
  | @cons r hosts references estimates hr _ ih =>
    obtain ⟨hfiles, hrest⟩ := List.forall_mem_cons.1 hfiles
    obtain ⟨ds, hds, hhosts⟩ := hr
    have hdata : HasData s resolver r ↔ ¬∀ d ∈ ds, s.held d = [] := by
      simp only [HasData, hds, Except.ok.injEq, exists_eq_left', not_forall, exists_prop, ne_eq]
    rw [List.flatten_cons, List.flatMap_cons, ih hrest,
      preferredHosts_of_held hblock hdistinct hleast (hfiles ds hds) hhosts]
    simp only [hdata, not_not]

open Classical in
/-- The hosts of references, each where it comes first. -/
theorem eraseDups_estimates : estimates.flatten.eraseDups =
    if ∀ r ∈ references, ¬HasData s resolver r then [] else s.hosts := by
  have hpieces : ∀ r ∈ references, (if ¬HasData s resolver r then [] else s.hosts).eraseDups =
      if ¬HasData s resolver r then [] else s.hosts.eraseDups := by
    intro r _
    split <;> rfl
  rw [flatten_estimates hblock hdistinct hleast hfiles h, eraseDups_flatMap_ite hpieces,
    eraseDups_of_nodup hdistinct]

end

/-- **The hosts of a split on a disk.**  For hosts that are listed once each, of which at least
    one is to be named, and sources that are no directories, whatever the threshold and the sizes
    of blocks and buffers: a split has exactly the hosts of the settings in their order, or
    none, and it has some iff one of the descriptors of its references is about a byte that its
    file really has. -/
theorem hosts_of_splits (settings : Settings) (disk : Disk) (resolver : Resolver)
    (references : List String) (bound : Option UInt32) (out : List Split)
    (hsome : settings.storage.hosts ≠ []) (hdistinct : settings.storage.hosts.Nodup)
    (hleast : 1 ≤ settings.locality.leastHosts)
    (hfiles : NoDirectory (.on settings.storage disk) resolver references)
    (h : splits settings.locality resolver (DiskStore.on settings.storage disk) references bound =
      .ok out) :
    ∀ split ∈ out, (split.hosts = settings.storage.hosts ∨ split.hosts = []) ∧
      (split.hosts ≠ [] ↔
        ∃ r ∈ split.paths, HasData (.on settings.storage disk) resolver r) := by
  intro split hsplit
  have hne := ne_nil_of_splits h
  obtain ⟨all, hall, rfl⟩ := (splits_eq_ok_iff settings.locality resolver _ bound hne).1 h
  have happortioned : Apportioned settings.locality resolver _ references bound _ :=
    apportioned_splitsOf settings.locality resolver _ hne hall
  obtain ⟨estimates, hestimates, hfirst⟩ := happortioned.hosts split hsplit
  have hfiles' : NoDirectory (.on settings.storage disk) resolver split.paths := by
    intro r hr
    refine hfiles r ?_
    rw [← happortioned.complete]
    exact List.mem_flatten.2 ⟨_, List.mem_map_of_mem hsplit, hr⟩
  have hblock := DiskStore.zero_lt_blockSize_on settings.storage disk
  have hhosts := (hfirst.unique (firstOccurrences_eraseDups _)).trans
    (eraseDups_estimates hblock hdistinct hleast hfiles' hestimates)
  by_cases hnone : ∀ r ∈ split.paths, ¬HasData (.on settings.storage disk) resolver r
  · rw [if_pos hnone] at hhosts
    refine ⟨Or.inr hhosts, fun hsome' => absurd hhosts hsome', ?_⟩
    rintro ⟨r, hr, hdata⟩
    exact absurd hdata (hnone r hr)
  · rw [if_neg hnone] at hhosts
    refine ⟨Or.inl hhosts, fun _ => ?_, fun _ => hhosts ▸ hsome⟩
    simpa only [not_forall, not_not, exists_prop] using hnone

/-- Two references to a file of ten bytes, of which the second is about bytes behind its end. -/
theorem hosts_of_splits_behind_end :
    let entries := [("f", Tree.file (List.replicate 10 0))]
    let disk : Disk := ⟨.directory [("data", .directory entries)], [], rfl⟩
    let settings : Settings := { storage := ⟨⟨"data"⟩, 8, 4, ["b", "a"]⟩ }
    let resolver : Resolver := fun r =>
      .ok [⟨some "f", if r = "inside" then 3 else 12, some 20, .empty⟩]
    let s := DiskStore.on settings.storage disk
    settings.storage.hosts ≠ [] ∧ settings.storage.hosts.Nodup ∧ 1 ≤ settings.locality.leastHosts ∧
      NoDirectory s resolver ["inside", "behind"] ∧
      ∃ out, splits settings.locality resolver s ["inside", "behind"] none = .ok out ∧
        ∀ split ∈ out, split.paths = ["inside"] → split.hosts = ["b", "a"] := by
  intro entries disk settings resolver s
  have hfiles : NoDirectory s resolver ["inside", "behind"] := by
    intro r _ ds hds d hd source hsource
    cases hds
    rw [List.mem_singleton.1 hd] at hsource
    cases hsource
    decide +kernel
  obtain ⟨out, hout⟩ : ∃ out,
      splits settings.locality resolver s ["inside", "behind"] none = .ok out :=
    Sequence.exists_eq_ok_iff.2 (by decide +kernel)
  refine ⟨by decide, by decide, by decide, hfiles, out, hout, fun split hsplit hpaths => ?_⟩
  obtain ⟨hhosts, hiff⟩ := hosts_of_splits settings disk resolver ["inside", "behind"] none out
    (by decide) (by decide) (by decide) hfiles hout split hsplit
  have hdata : HasData s resolver "inside" :=
    ⟨_, rfl, _, List.mem_singleton_self _, by decide +kernel⟩
  exact hhosts.resolve_right (hiff.2 ⟨"inside", hpaths ▸ List.mem_singleton_self _, hdata⟩)

end Plan

end Apportion
