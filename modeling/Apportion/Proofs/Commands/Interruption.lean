/-
  Planning from the command line that fails, and what it leaves.

  * `Plan.Unplanned`, `ofInputs_eq_error_iff`: what keeps inputs from being planned.
  * `saveSplits_eq_error`: splits are saved up to the first that cannot be.
  * `LeavesSaved`: the splits saved are read from their files, and all other files are as they were,
    those of later splits among them.
  * `plan_interrupted`: a plan that is not made leaves the disk as it was opened, and a split without
    an encoding leaves the splits before it.
-/
import Apportion.Proofs.Commands
import Apportion.Proofs.Discovery
import Apportion.Proofs.Plan.LocalHosts
import Apportion.Proofs.Split.Layout

namespace Apportion

open Sequence

/-! ## Inputs that are not planned -/

namespace Plan

variable {σ : Type} [Store σ]

/-- What keeps inputs from being planned: they stand for no references, or a reference does not
    resolve or has no estimate.  The first such reference decides. -/
inductive Unplanned (settings : LocalitySettings) (resolver : Resolver) (s : σ)
    (inputs : List String) : Failure → Prop
  | discovery {failure} : Discovery.references s inputs = .error failure →
      Unplanned settings resolver s inputs failure
  | reference {before reference after failure} :
      Discovery.references s inputs = .ok (before ++ reference :: after) →
      (∀ earlier ∈ before, ∃ hosts, Estimated settings resolver s earlier hosts) →
      Unestimated settings resolver s reference failure → Unplanned settings resolver s inputs failure

/-- **Inputs are not planned** for these reasons, whatever the bound. -/
theorem ofInputs_eq_error_iff {settings : LocalitySettings} {resolver : Resolver} {s : σ}
    {inputs : List String} {bound : Option UInt32} {failure : Failure} :
    ofInputs settings resolver s inputs bound = .error failure ↔
      Unplanned settings resolver s inputs failure := by
  have hsplits : ∀ references, references ≠ [] →
      (splits settings resolver s references bound = .error failure ↔
        references.mapM (hostsFor settings resolver s) = .error failure) := by
    intro references hne
    rw [splits_eq settings resolver s bound hne]
    cases references.mapM (hostsFor settings resolver s) with
    | error first => constructor <;> rintro ⟨⟩ <;> rfl
    | ok estimates => exact ⟨nofun, nofun⟩
  rw [ofInputs, bind_eq_error_iff]
  constructor
  · rintro (h | ⟨references, hfound, h⟩)
    · exact .discovery h
    · obtain ⟨-, -, -, hne⟩ := Discovery.references_eq_ok_iff.1 hfound
      obtain ⟨before, reference, after, rfl, hbefore, hfail⟩ :=
        mapM_eq_error_iff.1 ((hsplits references hne).1 h)
      exact .reference hfound
        (fun earlier hmem => (hbefore earlier hmem).imp fun _ => (hostsFor_eq_ok_iff ..).1)
        ((hostsFor_eq_error_iff ..).1 hfail)
  · rintro (h | ⟨hfound, hbefore, hfail⟩)
    · exact Or.inl h
    · refine Or.inr ⟨_, hfound, (hsplits _ (by simp)).2 (mapM_eq_error_iff.2 ⟨_, _, _, rfl, ?_, ?_⟩)⟩
      · exact fun earlier hmem => (hbefore earlier hmem).imp fun _ => (hostsFor_eq_ok_iff ..).2
      · exact (hostsFor_eq_error_iff ..).2 hfail

/-- A reference to bytes that are held has all hosts. -/
theorem estimated_of_held {s : DiskStore} {settings : LocalitySettings} {resolver : Resolver}
    (hblock : 0 < s.blockSize) (hdistinct : s.hosts.Nodup) (hleast : 1 ≤ settings.leastHosts)
    {reference : String} {ds : List Descriptor} (hds : resolver reference = .ok ds)
    (hfiles : s.NoDirectory ds) (hheld : ¬∀ d ∈ ds, s.held d = [])
    (hok : (Locality.preferredHosts settings s ds).isOk) :
    Estimated settings resolver s reference s.hosts := by
  obtain ⟨hosts, hhosts⟩ := exists_eq_ok_iff.2 hok
  have hall := preferredHosts_of_held hblock hdistinct hleast hfiles hhosts
  rw [if_neg hheld] at hall
  exact ⟨ds, hds, hhosts.trans (congrArg _ hall)⟩

end Plan

/-! ## Splits that are not saved -/

/-- A split with too long a host has no encoding. -/
theorem Split.exists_encode_eq_error {split : Split} {host : String} (hhost : host ∈ split.hosts)
    (hlong : maxLength < host.utf8ByteSize) : ∃ failure, split.encode = .error failure := by
  cases hencode : split.encode with
  | error failure => exact ⟨failure, rfl⟩
  | ok o =>
    obtain ⟨-, hhosts, -⟩ := encode_eq_ok_iff.1 hencode
    exact absurd (hhosts.lengths host hhost) (Nat.not_le.2 hlong)

theorem Split.save_of_encode {σ : Type} [Store σ] {split : Split} {failure : Failure}
    (h : split.encode = .error failure) (s : σ) (path : Path) :
    split.save s path = (.error failure, s) := by
  rw [save, h]

namespace DiskStore

variable {s : DiskStore} {settings : StorageSettings} {disk : Disk}

/-- Opening a store makes the base directory, if it is missing, and nothing else. -/
theorem disk_of_create (h : create settings disk = (.ok s, s.disk)) :
    if disk.contains settings.basePath then s.disk = disk
      else disk.makeDirectories settings.basePath = (.ok (), s.disk) := by
  unfold create at h
  split at h
  · rename_i hthere
    rw [if_pos hthere]
    exact (Prod.mk.inj h).2.symm
  · rename_i hmissing
    rw [if_neg hmissing]
    split at h
    · rename_i hmade
      rw [hmade, (Prod.mk.inj h).2]
    · cases h

theorem grows_of_create (h : create settings disk = (.ok s, s.disk)) (loc : Location) :
    Disk.Grows loc disk s.disk := by
  have hopened := disk_of_create h
  split at hopened
  · rw [hopened]
    exact .refl loc disk
  · have hgrows := Disk.Grows.makeDirectories disk settings.basePath loc
    rw [hopened] at hgrows
    exact hgrows

end DiskStore

namespace Commands

open Disk

variable {s mid last : DiskStore} {output : Path} {saved before after : List Split}
  {split : Split} {paths : List Path} {failure : Failure}

/-- **Splits are saved up to the first that cannot be.** -/
theorem saveSplits_eq_error {index : Nat}
    (hbefore : saveSplits output s index before = (.ok paths, mid))
    (hsplit : split.save mid (splitPath output (index + before.length)) = (.error failure, last)) :
    saveSplits output s index (before ++ split :: after) = (.error failure, last) := by
  induction before generalizing s index paths with
  | nil =>
    cases hbefore
    rw [List.nil_append, saveSplits]
    rw [List.length_nil, Nat.add_zero] at hsplit
    rw [hsplit]
  | cons first before ih =>
    rw [saveSplits] at hbefore
    rw [List.cons_append, saveSplits]
    split at hbefore
    · cases hbefore
    · rename_i mid' hfirst
      split at hbefore
      · cases hbefore
      · rename_i later rest hrest
        cases hbefore
        rw [List.length_cons, Nat.add_comm before.length, ← Nat.add_assoc] at hsplit
        rw [ih hrest hsplit]

/-- Different indices are those of different files. -/
theorem eq_of_locate_splitPath {d : Disk} {i j : Nat} {l : Location} {k k' : Tree.Kind}
    (hi : d.locate (s.full (splitPath output i)) = .ok (l, k))
    (hj : d.locate (s.full (splitPath output j)) = .ok (l, k')) : i = j := by
  rw [full_splitPath] at hi hj
  obtain ⟨above, habove, hl⟩ := walk_join (isPlain_splitName i) (locate_eq_ok_iff.1 hi).2.1
  obtain ⟨above', habove', hl'⟩ := walk_join (isPlain_splitName j) (locate_eq_ok_iff.1 hj).2.1
  cases habove.symm.trans habove'
  rw [hl', names_splitName, names_splitName] at hl
  exact (splitName_injective (List.cons.inj hl).1).symm

/-- What is left of a plan after these splits were saved in the output directory of a store on
    `disk`. -/
structure LeavesSaved (s : DiskStore) (output : Path) (saved : List Split) (disk disk' : Disk) :
    Prop where
  /-- Each split that was saved is read from its file. -/
  loaded : ∀ i (hi : i < saved.length),
    Split.load { s with disk := disk' } (splitPath output i) = .ok saved[i]
  /-- A file under the name of a later split was there before, and what was there is there still. -/
  later : ∀ i, saved.length ≤ i → ∀ l content,
    (disk'.locate (s.full (splitPath output i)) = .ok (l, .file content) →
      disk.find? l = some (.file content)) ∧
    (disk.locate (s.full (splitPath output i)) = .ok (l, .file content) →
      disk'.locate (s.full (splitPath output i)) = .ok (l, .file content))
  /-- All files but those of the splits that were saved are as they were. -/
  others : ∀ l content,
    (∀ i < saved.length, ∀ k, disk'.locate (s.full (splitPath output i)) ≠ .ok (l, k)) →
      (disk'.find? l = some (.file content) ↔ disk.find? l = some (.file content))

section
variable {settings : StorageSettings} {disk made : Disk}
  (hopen : DiskStore.create settings disk = (.ok s, s.disk))
  (hmade : s.disk.makeDirectories (s.full output) = (.ok (), made))
  (hsaves : saveSplits output { s with disk := made } 0 saved = (.ok paths, last))
include hsaves

theorem load_of_saveSplits {i : Nat} (hi : i < saved.length) :
    Split.load { s with disk := last.disk } (splitPath output i) = .ok saved[i] := by
  obtain ⟨hpaths, hsaved⟩ := saveSplits_eq_ok hsaves
  let s' : DiskStore := { s with disk := last.disk }
  have hloaded : paths.mapM (Split.load s') = .ok saved := mapM_load_of_saveEach hpaths hsaved
  have hindices : paths = (List.range saved.length).map (splitPath output) := by
    rw [hpaths, map_join_splitFiles, List.range_eq_range']
  have hi' : i < paths.length := by rw [(mapM_eq_ok_iff.1 hloaded).length_eq]; exact hi
  have hload := (mapM_eq_ok_iff.1 hloaded).get hi' hi
  simpa only [hindices, List.get_eq_getElem, List.getElem_map, List.getElem_range] using hload

include hopen hmade

theorem file_iff_of_saveSplits {l : Location}
    (hother : ∀ i < saved.length, ∀ k, last.disk.locate (s.full (splitPath output i)) ≠ .ok (l, k))
    (content : Octets) :
    last.disk.find? l = some (.file content) ↔ disk.find? l = some (.file content) := by
  obtain ⟨-, hsaved⟩ := saveSplits_eq_ok hsaves
  have hpath : ∀ w ∈ saved.zip (splitFiles 0 saved.length), ∀ k,
      last.disk.locate ((s.below output).full w.2) ≠ .ok (l, k) := by
    intro w hw k
    have hfile := (List.of_mem_zip hw).2
    obtain ⟨i, hi, hname⟩ := List.mem_map.1 hfile
    rw [DiskStore.full_below s output (isPlain_of_mem_splitFiles hfile).1.not_isAbsolute, ← hname]
    exact hother i (by simpa using hi) k
  have hkept := DiskStore.file_iff_of_saveEach hsaved hpath content
  have hopened := (DiskStore.create_eq_ok hopen).2 l content
  exact hkept.trans ((file_iff_of_makeDirectories hmade content).trans hopened)

/-- A path that leads to a file leads there when directories and other files have been made. -/
theorem locate_of_saveSplits {path : Path} {l : Location} {content : Octets}
    (hlocate : disk.locate path = .ok (l, .file content)) :
    ∃ content', last.disk.locate path = .ok (l, .file content') := by
  obtain ⟨-, hsaved⟩ := saveSplits_eq_ok hsaves
  obtain ⟨_, hopened, -⟩ := (DiskStore.grows_of_create hopen l).locate hlocate
  have hgrows := Grows.makeDirectories s.disk (s.full output) l
  rw [hmade] at hgrows
  obtain ⟨_, hready, -⟩ := hgrows.locate hopened
  obtain ⟨content', hlast⟩ := DiskStore.locate_file_of_saveEach hsaved hready
  exact ⟨content', hlast⟩

theorem leavesSaved_of_saveSplits : LeavesSaved s output saved disk last.disk := by
  have hothers := fun l content hother =>
    file_iff_of_saveSplits (l := l) hopen hmade hsaves hother content
  -- the file of a later split is none of those that were saved
  have hlater : ∀ i, saved.length ≤ i → ∀ l content,
      last.disk.locate (s.full (splitPath output i)) = .ok (l, .file content) →
        disk.find? l = some (.file content) := by
    intro i hi l content hlocate
    refine (hothers l content fun j hj k hlocate' => ?_).1 (locate_eq_ok_iff.1 hlocate).2.2.1
    cases eq_of_locate_splitPath hlocate hlocate'
    exact Nat.not_lt.2 hi hj
  refine ⟨fun i hi => load_of_saveSplits hsaves hi,
    fun i hi l content => ⟨hlater i hi l content, fun hlocate => ?_⟩, hothers⟩
  obtain ⟨content', hlast⟩ := locate_of_saveSplits hopen hmade hsaves hlocate
  have hkept := hlater i hi l content' hlast
  rw [(locate_eq_ok_iff.1 hlocate).2.2.1] at hkept
  cases hkept
  exact hlast

end

/-! ## Main result -/

section
variable {settings : Settings} {inputs : List String} {bound : Option UInt32} {disk : Disk}

/-- A plan of which the splits `saved` were saved, which left `last`, and of which `split` is the
    next one. -/
structure Reaches (settings : Settings) (inputs : List String) (bound : Option UInt32)
    (output : Path) (disk : Disk) (s : DiskStore) (saved : List Split) (split : Split)
    (last : DiskStore) : Prop where
  opened : DiskStore.create settings.storage disk = (.ok s, s.disk)
  planned : ∃ after, splitsOf settings s inputs bound = .ok (saved ++ split :: after)
  written : ∃ ready paths, s.makeDirectories output = (.ok (), ready) ∧
    saveSplits output ready 0 saved = (.ok paths, last)

theorem plan_of_create {result : Except Failure (List Path)}
    (hopen : DiskStore.create settings.storage disk = (.ok s, s.disk))
    (h : planIn settings inputs bound output s = (result, last)) :
    plan settings inputs bound output disk = (result, last.disk) := by
  rw [plan, hopen]
  dsimp only
  rw [h]

theorem plan_of_unplanned (hopen : DiskStore.create settings.storage disk = (.ok s, s.disk))
    (h : Plan.Unplanned settings.locality
      (Resolution.descriptors settings.planning.containerExtension s) s inputs failure) :
    plan settings inputs bound output disk = (.error failure, s.disk) := by
  have hsplits : splitsOf settings s inputs bound = .error failure := Plan.ofInputs_eq_error_iff.2 h
  refine plan_of_create hopen ?_
  rw [planIn, hsplits]

theorem Reaches.plan_of_encode
    (h : Reaches settings inputs bound output disk s saved split last)
    (hencode : split.encode = .error failure) :
    plan settings inputs bound output disk = (.error failure, last.disk) := by
  obtain ⟨after, hplanned⟩ := h.planned
  obtain ⟨ready, paths, hready, hsaves⟩ := h.written
  refine plan_of_create h.opened ?_
  rw [planIn, hplanned]
  dsimp only
  rw [hready]
  exact saveSplits_eq_error hsaves (Split.save_of_encode hencode last _)

theorem Reaches.leavesSaved (h : Reaches settings inputs bound output disk s saved split last) :
    LeavesSaved s output saved disk last.disk := by
  obtain ⟨ready, paths, hready, hsaves⟩ := h.written
  rw [DiskStore.makeDirectories] at hready
  split at hready
  · rename_i made hmade
    cases hready
    exact leavesSaved_of_saveSplits h.opened hmade hsaves
  · cases hready

end

/-- **What is left when planning fails.**

    * If a store is opened and the inputs are not planned, as they are not discovered or a reference
      is not resolved or not estimated, then the disk is left as the store was opened on it: at most
      the base directory was made, and all files are as they were.
    * If the splits `saved` were saved, for which the output directory was made, and the next one has
      no encoding, then this is what planning fails with.  The splits saved are read from their
      files, and all other files are as they were: that of the split that failed and those of later
      ones as well.
    * In any store, to save a split without an encoding leaves everything as it was. -/
theorem plan_interrupted (settings : Settings) (inputs : List String) (bound : Option UInt32)
    (output : Path) (disk : Disk) :
    (∀ s failure, DiskStore.create settings.storage disk = (.ok s, s.disk) →
      Plan.Unplanned settings.locality
        (Resolution.descriptors settings.planning.containerExtension s) s inputs failure →
      plan settings inputs bound output disk = (.error failure, s.disk) ∧
        (if disk.contains settings.storage.basePath then s.disk = disk
          else disk.makeDirectories settings.storage.basePath = (.ok (), s.disk)) ∧
        ∀ l content, s.disk.find? l = some (.file content) ↔ disk.find? l = some (.file content)) ∧
    (∀ s saved split last failure, Reaches settings inputs bound output disk s saved split last →
      split.encode = .error failure →
      plan settings inputs bound output disk = (.error failure, last.disk) ∧
        (∃ problem, failure = .serialization problem) ∧ LeavesSaved s output saved disk last.disk) ∧
    ∀ {σ : Type} [Store σ] (store : σ) (path : Path) (split : Split) (failure : Failure),
      split.encode = .error failure → split.save store path = (.error failure, store) ∧
        ∃ problem, failure = .serialization problem := by
  refine ⟨fun s failure hopen h => ?_, fun s saved split last failure h hencode => ?_,
    fun store path split failure hencode => ?_⟩
  · exact ⟨plan_of_unplanned hopen h, DiskStore.disk_of_create hopen,
      (DiskStore.create_eq_ok hopen).2⟩
  · exact ⟨h.plan_of_encode hencode, Split.eq_serialization_of_encode hencode, h.leavesSaved⟩
  · exact ⟨Split.save_of_encode hencode store path, Split.eq_serialization_of_encode hencode⟩

theorem utf8ByteSize_replicate (n : Nat) :
    (String.ofList (List.replicate n 'x')).utf8ByteSize = n := by
  change (String.ofList (List.replicate n 'x')).toByteArray.size = n
  rw [String.toByteArray_ofList, List.utf8Encode, List.size_toByteArray, List.length_flatMap,
    List.map_replicate, List.sum_replicate]
  exact Nat.mul_one n

/-- Two references, of which the second is about a byte on a host with too long a name, and a file
    of an earlier plan under the name of its split; and a reference to a file that is no descriptor
    file. -/
theorem plan_interrupted_long_host :
    let host := String.ofList (List.replicate 65536 'x')
    let settings : Settings := { storage := { basePath := ⟨"data"⟩, hosts := [host] } }
    let disk : Disk := ⟨.directory [("data", .directory [("a.wu", .file (Bundle.single {}).encode),
      ("b.wu", .file (Bundle.single { source := some "b" }).encode), ("b", .file [1]),
      ("out", .directory [("split-00001.bin", .file [7])])])], [], rfl⟩
    (∃ problem, plan settings ["b"] none ⟨"out"⟩ disk = (.error (.descriptor "b" problem), disk)) ∧
    ∃ disk' problem, plan settings ["a.wu", "b.wu"] none ⟨"out"⟩ disk =
        (.error (.serialization problem), disk') ∧
      let s' := DiskStore.on settings.storage disk'
      Split.load s' ⟨"out/split-00000.bin"⟩ = .ok (.of ["a.wu"] []) ∧
        Store.read s' ⟨"out/split-00001.bin"⟩ = .ok [7] := by
  intro host settings disk
  let s := DiskStore.on settings.storage disk
  let resolver := Resolution.descriptors ".mwu" s
  have hopen : DiskStore.create settings.storage disk = (.ok s, s.disk) := by
    have hthere : disk.contains settings.storage.basePath := by decide +kernel
    rw [DiskStore.create, if_pos hthere]
    rfl
  constructor
  · have hsplits : splitsOf settings s ["b"] none = .error (.descriptor "b"
        ("Serialization error: failed to deserialize descriptor file: " ++
          "io error: unexpected end of file")) := by decide +kernel
    have hunplanned := Plan.ofInputs_eq_error_iff.1 hsplits
    exact ⟨_, ((plan_interrupted settings _ _ _ disk).1 s _ hopen hunplanned).1⟩
  · have hnone : Plan.Estimated settings.locality resolver s "a.wu" [] :=
      ⟨[{}], by decide +kernel, by decide +kernel⟩
    have hone : Plan.Estimated settings.locality resolver s "b.wu" [host] := by
      have hfile : s.disk.isDirectory (s.full ⟨"b"⟩) = false := by decide +kernel
      have hfiles : s.NoDirectory [{ source := some "b" }] := by
        simpa [DiskStore.NoDirectory] using hfile
      exact Plan.estimated_of_held (s := s) (DiskStore.zero_lt_blockSize_on settings.storage disk)
        (List.nodup_singleton host) (by decide) (by decide +kernel) hfiles (by decide +kernel)
        (by decide +kernel)
    let second := Split.of ["b.wu"] [host]
    have hplanned : splitsOf settings s ["a.wu", "b.wu"] none =
        .ok ([.of ["a.wu"] []] ++ second :: []) :=
      Plan.ofInputs_eq_ok_iff.2 ⟨["a.wu", "b.wu"], by decide +kernel,
        (Plan.splits_eq_ok_iff _ _ _ _ (by decide)).2 ⟨_, .cons hnone (.cons hone .nil), by cbv⟩⟩
    obtain ⟨failure, hencode⟩ : ∃ failure, second.encode = .error failure := by
      refine Split.exists_encode_eq_error (List.mem_singleton_self host) ?_
      rw [utf8ByteSize_replicate]
      decide
    have hready : (s.makeDirectories ⟨"out"⟩).1 = .ok () :=
      toOption_eq_some_iff.1 (by decide +kernel)
    have hsaves : (saveSplits ⟨"out"⟩ (s.makeDirectories ⟨"out"⟩).2 0 [.of ["a.wu"] []]).1 =
        .ok [⟨"out/split-00000.bin"⟩] := toOption_eq_some_iff.1 (by decide +kernel)
    obtain ⟨ready, hmade⟩ : ∃ ready, (s.makeDirectories ⟨"out"⟩).2 = ready := ⟨_, rfl⟩
    obtain ⟨last, hlast⟩ : ∃ last, (saveSplits ⟨"out"⟩ ready 0 [.of ["a.wu"] []]).2 = last :=
      ⟨_, rfl⟩
    rw [hmade] at hsaves
    have hreaches : Reaches settings ["a.wu", "b.wu"] none ⟨"out"⟩ disk s [.of ["a.wu"] []] second
        last :=
      ⟨hopen, ⟨[], hplanned⟩, ready, _, Prod.ext hready hmade, Prod.ext hsaves hlast⟩
    obtain ⟨hplan, ⟨problem, rfl⟩, hleaves⟩ :=
      (plan_interrupted settings _ none ⟨"out"⟩ disk).2.1 _ _ _ _ _ hreaches hencode
    have hold : disk.locate (s.full (splitPath ⟨"out"⟩ 1)) =
        .ok (["split-00001.bin", "out", "data"], .file [7]) := by decide +kernel
    have hkept := (hleaves.later 1 (Nat.le_refl 1) _ _).2 hold
    exact ⟨last.disk, problem, hplan, hleaves.loaded 0 Nat.one_pos,
      DiskStore.read_eq_ok_iff.2 ⟨_, hkept⟩⟩

end Commands

end Apportion
