/-
  Planning from the command line, and the files that it leaves.

  * `splitName_injective`, `splitName_lt`: the names of splits differ, and are in order as long as
    their numbers have the same width.
  * `saveSplits_eq_ok`: what is written are the splits, each under its name in the output directory.
  * `Vacant`: an output directory with nothing in it; `LeavesInside`: a path to one that goes up out of
    a directory that lies in it.
  * `plan_leaves_splits`: the paths, the splits and the other files after planning, and the listing of
    a vacant output directory; `plan_up_leaves_directory`: a path that goes up so leaves more.
-/
import Apportion.Commands
import Apportion.Proofs.Decimal.Padded
import Apportion.Proofs.Disk.Below
import Apportion.Proofs.Disk.Directories
import Apportion.Proofs.Store.Answers
import Mathlib.Data.List.Infix
import Mathlib.Data.List.Nodup

namespace Apportion

open Sequence

/-! ## Opening a store -/

namespace DiskStore

open Disk

variable {s : DiskStore} {settings : StorageSettings} {disk disk' : Disk}

/-- A store is opened on the disk that it leaves, with all files as they were. -/
theorem create_eq_ok (h : create settings disk = (.ok s, disk')) :
    s.disk = disk' ∧ ∀ (l : Location) (content : Octets),
      disk'.find? l = some (.file content) ↔ disk.find? l = some (.file content) := by
  unfold create at h
  split at h
  · cases h
    exact ⟨rfl, fun _ _ => Iff.rfl⟩
  · split at h
    · rename_i hmade
      cases h
      exact ⟨rfl, fun _ content => file_iff_of_makeDirectories hmade content⟩
    · cases h

theorem list_of_locate {path : Path} {loc : Location}
    (h : s.disk.locate (s.full path) = .ok (loc, .directory)) :
    Store.list s path = .ok (Store.sortNames (s.disk.names loc)) :=
  list_eq_ok_iff.2 ⟨loc, h, rfl⟩

end DiskStore

namespace Commands

open Disk

/-! ## Names of splits -/

section
variable {i j : Nat}

theorem toList_splitName (i : Nat) : (splitName i).toList =
    "split-".toList ++ ((Decimal.padded 5 i).toList ++ ".bin".toList) := by
  rw [splitName, String.toList_append, String.toList_append, List.append_assoc]

theorem splitName_injective : Function.Injective splitName := by
  intro i j h
  have hlist := congrArg String.toList h
  rw [toList_splitName, toList_splitName] at hlist
  have hpadded := List.append_cancel_right (List.append_cancel_left hlist)
  exact Decimal.padded_injective 5 (String.toList_injective hpadded)

/-- Names are in order up to the last number of five digits. -/
theorem splitName_lt (hij : i < j) (hj : j < 100000) : splitName i < splitName j := by
  have hfits : j < 10 ^ 5 := by omega
  rw [String.lt_iff, toList_splitName, toList_splitName]
  exact List.append_left_lt (Decimal.padded_append_lt hij hfits _)

theorem slash_notMem_splitName (i : Nat) : '/' ∉ (splitName i).toList := by
  rw [toList_splitName, List.mem_append, List.mem_append]
  rintro (hlead | hdigit | hending)
  · revert hlead
    decide
  · cases Decimal.isDigit_of_mem_padded hdigit
  · revert hending
    decide

theorem names_splitName (i : Nat) : (⟨splitName i⟩ : Path).names = [splitName i] := by
  rw [Path.names, List.splitOn_eq_singleton (slash_notMem_splitName i), List.map_singleton,
    String.ofList_toList]

theorem isPlain_splitName (i : Nat) : (⟨splitName i⟩ : Path).IsPlain := by
  have hlong : ∀ name : String, name.toList.length < 6 → splitName i ≠ name := by
    rintro name hshort rfl
    rw [toList_splitName, List.length_append] at hshort
    exact Nat.not_le.2 hshort (Nat.le_add_right _ _)
  intro name hname
  rw [names_splitName, List.mem_singleton] at hname
  rw [hname]
  exact ⟨hlong _ (by decide), hlong _ (by decide), hlong _ (by decide)⟩

theorem isAbsolute_splitName (i : Nat) : (⟨splitName i⟩ : Path).isAbsolute = false :=
  (isPlain_splitName i).not_isAbsolute

theorem splitPath_injective (output : Path) : Function.Injective (splitPath output) := by
  intro i j h
  rw [splitPath, splitPath, Path.join_eq output (isAbsolute_splitName i),
    Path.join_eq output (isAbsolute_splitName j), Path.mk.injEq] at h
  exact splitName_injective (String.append_right_inj _ |>.1 h)

theorem full_splitPath (s : DiskStore) (output : Path) (k : Nat) :
    s.full (splitPath output k) = (s.full output).join ⟨splitName k⟩ :=
  Path.join_join s.base (isAbsolute_splitName k)

end

/-! ## Writing splits -/

variable {s s' : DiskStore} {output : Path} {splits : List Split} {paths : List Path}

/-- The files of splits, as they are named in the output directory; the first has the given
    index. -/
def splitFiles (index n : Nat) : List Path := (List.range' index n).map fun i => ⟨splitName i⟩

theorem map_join_splitFiles (output : Path) (index n : Nat) :
    (splitFiles index n).map output.join = (List.range' index n).map (splitPath output) := by
  rw [splitFiles, List.map_map, Function.comp_def]
  rfl

theorem map_snd_zip_splitFiles (splits : List Split) (index : Nat) :
    (splits.zip (splitFiles index splits.length)).map Prod.snd = splitFiles index splits.length :=
  List.map_snd_zip (by rw [splitFiles, List.length_map, List.length_range'])

theorem isPlain_of_mem_splitFiles {index n : Nat} {file : Path} (h : file ∈ splitFiles index n) :
    file.IsPlain ∧ file.names = [file.text] := by
  obtain ⟨i, -, rfl⟩ := List.mem_map.1 h
  exact ⟨isPlain_splitName i, names_splitName i⟩

/-- **What is written** are the splits, one after the other, each under its name in the output
    directory. -/
theorem saveSplits_eq_ok {index : Nat} (h : saveSplits output s index splits = (.ok paths, s')) :
    paths = (splitFiles index splits.length).map output.join ∧
      Split.saveEach (s.below output) (splits.zip (splitFiles index splits.length)) =
        (.ok (), ({ s with disk := s'.disk } : DiskStore).below output) := by
  induction splits generalizing s index paths with
  | nil =>
    cases h
    exact ⟨rfl, rfl⟩
  | cons split splits ih =>
    unfold saveSplits at h
    dsimp only at h
    split at h
    · cases h
    · rename_i mid hmid
      split at h
      · cases h
      · rename_i last rest hrest
        cases h
        obtain ⟨hpaths, hsaved⟩ := ih hrest
        obtain ⟨o, hencode, hsave⟩ := Split.save_eq_ok_iff.1 hmid
        obtain ⟨-, disk, rfl, -⟩ := DiskStore.save_eq_ok hsave
        have hbelow := DiskStore.save_below (s := s) (p := output) (isAbsolute_splitName index) o
        rw [← splitPath, hsave] at hbelow
        refine ⟨congrArg _ hpaths, ?_⟩
        exact Split.saveEach_cons_eq_ok_iff.2
          ⟨_, Split.save_eq_ok_iff.2 ⟨o, hencode, hbelow⟩, hsaved⟩

/-- **Each split is read from its file.** -/
theorem mapM_load_of_saveEach (hpaths : paths = (splitFiles 0 splits.length).map output.join)
    (hsaved : Split.saveEach (s.below output) (splits.zip (splitFiles 0 splits.length)) =
      (.ok (), s'.below output)) : paths.mapM (Split.load s') = .ok splits := by
  have hlength : splits.length = (splitFiles 0 splits.length).length := by
    rw [splitFiles, List.length_map, List.length_range']
  have hplain : ∀ w ∈ splits.zip (splitFiles 0 splits.length), w.2.IsPlain :=
    fun w hw => (isPlain_of_mem_splitFiles (List.of_mem_zip hw).2).1
  have hdistinct : (splitFiles 0 splits.length).Nodup :=
    List.Nodup.map (fun i j h => splitName_injective (Path.mk.inj h)) List.nodup_range'
  rw [← map_snd_zip_splitFiles] at hdistinct
  have hloaded := Split.load_of_saveEach hplain hdistinct hsaved
  rw [hpaths, List.mapM_map]
  refine mapM_eq_ok_iff.2 (List.forall₂_iff_zip.2 ⟨hlength, fun hw => ?_⟩).flip
  have hload := hloaded _ hw
  rw [DiskStore.load_below (hplain _ hw).not_isAbsolute] at hload
  exact hload

/-! ## The output directory -/

/-- Where an output path leads when all that it needs has been made. -/
def target (s : DiskStore) (output : Path) : Location :=
  spelled [] (s.disk.stepsFromRoot (s.full output))

/-- An output directory that is missing or has nothing in it; its path is not empty. -/
structure Vacant (s : DiskStore) (output : Path) : Prop where
  text_ne : (s.full output).text ≠ ""
  names_eq : s.disk.names (target s output) = []

/-- An output path goes up out of a directory that lies in the output directory. -/
def LeavesInside (s : DiskStore) (output : Path) : Prop :=
  UpFromInside (s.disk.stepsFromRoot (s.full output)) (target s output)

/-- The names of splits, in order. -/
theorem pairwise_splitNames {n : Nat} (hn : n ≤ 100000) :
    ((List.range n).map splitName).Pairwise (· < ·) := by
  rw [List.pairwise_map]
  refine List.pairwise_lt_range.imp_of_mem fun _ hj hlt => ?_
  exact splitName_lt hlt (Nat.lt_of_lt_of_le (List.mem_range.1 hj) hn)

theorem map_text_zip_splitFiles (splits : List Split) :
    (splits.zip (splitFiles 0 splits.length)).map (fun w => w.2.text) =
      (List.range splits.length).map splitName :=
  calc (splits.zip (splitFiles 0 splits.length)).map (fun w => w.2.text)
      = ((splits.zip (splitFiles 0 splits.length)).map Prod.snd).map Path.text := List.map_map.symm
    _ = (splitFiles 0 splits.length).map Path.text := by rw [map_snd_zip_splitFiles]
    _ = (List.range splits.length).map splitName := by
        rw [splitFiles, List.map_map, List.range_eq_range']
        rfl

section
variable {made : Disk} {loc : Location}
  (hlocate : s.disk.locate (s.full output) = .ok (loc, .directory))
  (hsaved : Split.saveEach (s.below output) (splits.zip (splitFiles 0 splits.length)) =
    (.ok (), ({ s with disk := made } : DiskStore).below output))
include hlocate hsaved

/-- The listing of an output directory is what was in it and the names of the splits. -/
theorem list_of_saveEach : Store.list ({ s with disk := made } : DiskStore) output =
    .ok (Store.sortNames (made.names loc)) ∧
    ∀ name, name ∈ made.names loc ↔
      name ∈ s.disk.names loc ∨ name ∈ (List.range splits.length).map splitName := by
  have hmem := DiskStore.mem_names_of_saveEach
    (fun w hw => isPlain_of_mem_splitFiles (List.of_mem_zip hw).2)
    (locate_eq_ok_iff.1 hlocate).2.1 hsaved
  rw [map_text_zip_splitFiles] at hmem
  have hdir : made.locate (({ s with disk := made } : DiskStore).full output) =
      .ok (loc, .directory) := DiskStore.locate_directory_of_saveEach hsaved hlocate
  exact ⟨DiskStore.list_of_locate hdir, hmem⟩

/-- Where there was nothing, there are the splits. -/
theorem list_of_names_eq_nil (hnames : s.disk.names loc = []) (hn : splits.length ≤ 100000) :
    Store.list ({ s with disk := made } : DiskStore) output =
      .ok ((List.range splits.length).map splitName) := by
  obtain ⟨hlist, hmem⟩ := list_of_saveEach hlocate hsaved
  rw [hlist]
  refine congrArg _ (Store.sortNames_eq (pairwise_splitNames hn) fun name => ?_)
  rw [hmem, hnames, or_iff_right List.not_mem_nil]

/-- Where there was a directory, there are more than the splits. -/
theorem list_ne_of_directory {name : String} (hinside : s.disk.find? (name :: loc) = some .directory) :
    Store.list ({ s with disk := made } : DiskStore) output ≠
      .ok ((List.range splits.length).map splitName) := by
  intro heq
  obtain ⟨hlist, hmem⟩ := list_of_saveEach hlocate hsaved
  rw [hlist] at heq
  have hname : name ∈ (List.range splits.length).map splitName := by
    rw [← Except.ok.inj heq, Store.mem_sortNames, hmem]
    exact Or.inl (mem_names_iff.2 (by rw [hinside]; rfl))
  rw [← map_text_zip_splitFiles] at hname
  obtain ⟨w, hw, rfl⟩ := List.mem_map.1 hname
  exact DiskStore.find?_ne_directory_of_saveEach
    (fun w hw => isPlain_of_mem_splitFiles (List.of_mem_zip hw).2)
    (locate_eq_ok_iff.1 hlocate).2.1 hsaved w hw hinside

end

/-- **The listing of a vacant output directory** is the names of the splits, unless the path to it
    goes up out of a directory that lies in it. -/
theorem Vacant.list_iff (h : Vacant s output) {made disk : Disk}
    (hmade : s.disk.makeDirectories (s.full output) = (.ok (), made))
    (hsaved : Split.saveEach (({ s with disk := made } : DiskStore).below output)
      (splits.zip (splitFiles 0 splits.length)) = (.ok (), ({ s with disk } : DiskStore).below output))
    (hn : splits.length ≤ 100000) :
    Store.list ({ s with disk } : DiskStore) output =
      .ok ((List.range splits.length).map splitName) ↔ ¬ LeavesInside s output := by
  constructor
  · intro hlist hleaves
    obtain ⟨loc, hlocate⟩ := locate_of_makeDirectories h.text_ne hmade
    obtain ⟨-, hwalk, -, -⟩ := locate_eq_ok_iff.1 hlocate
    have hgrows := Grows.makeDirectories s.disk (s.full output) []
    rw [hmade] at hgrows
    rw [hgrows.stepsFromRoot] at hwalk
    obtain ⟨name, hinside⟩ := hleaves.exists_directory (walk_eq_spelled hwalk ▸ hwalk)
    rw [target, ← walk_eq_spelled hwalk] at hinside
    exact list_ne_of_directory (s := { s with disk := made }) hlocate hsaved hinside hlist
  · intro hstays
    obtain ⟨loc, hlocate, hnames⟩ :=
      Disk.names_of_makeDirectories h.text_ne h.names_eq hstays hmade
    exact list_of_names_eq_nil (s := { s with disk := made }) hlocate hsaved hnames hn

/-! ## Main result -/

section
variable {settings : Settings} {inputs : List String} {bound : Option UInt32} {disk disk' : Disk}

theorem planIn_eq_ok (h : planIn settings inputs bound output s = (.ok paths, s')) :
    ∃ splits made, splitsOf settings s inputs bound = .ok splits ∧
      s.disk.makeDirectories (s.full output) = (.ok (), made) ∧
      saveSplits output { s with disk := made } 0 splits = (.ok paths, s') := by
  unfold planIn at h
  split at h
  · cases h
  · rename_i splits hsplits
    split at h
    · cases h
    · rename_i mid hmid
      unfold DiskStore.makeDirectories at hmid
      split at hmid
      · rename_i made hmade
        cases hmid
        exact ⟨splits, made, hsplits, hmade, h⟩
      · cases hmid

theorem plan_eq_ok (h : plan settings inputs bound output disk = (.ok paths, disk')) :
    ∃ s s', DiskStore.create settings.storage disk = (.ok s, s.disk) ∧
      planIn settings inputs bound output s = (.ok paths, s') ∧ s'.disk = disk' := by
  unfold plan at h
  split at h
  · cases h
  · rename_i s d hcreate
    have hsame := (DiskStore.create_eq_ok hcreate).1
    subst hsame
    exact ⟨s, _, hcreate, Prod.ext (Prod.mk.inj h).1 rfl, (Prod.mk.inj h).2⟩

/-- **Planning leaves its splits in the output directory.**  If it succeeds on a disk, then a store
    was opened on the disk, and planning with it gave splits, such that:

    * the paths answered are those of the files `split-<index>.bin` in the output directory, the index
      with five digits at least, and no two are the same;
    * the splits are read from them, each from its own;
    * all other files of the disk are as they were;
    * if the output directory was vacant, and there are at most 100000 splits, its listing is the names
      of these files, in the order of the splits, exactly if the output path does not go up out of a
      directory that lies in the output directory. -/
theorem plan_leaves_splits (h : plan settings inputs bound output disk = (.ok paths, disk')) :
    ∃ s splits, DiskStore.create settings.storage disk = (.ok s, s.disk) ∧
      splitsOf settings s inputs bound = .ok splits ∧
      let s' : DiskStore := { s with disk := disk' }
      paths = (List.range splits.length).map (fun i =>
        output.join ⟨"split-" ++ Decimal.padded 5 i ++ ".bin"⟩) ∧
      paths.Nodup ∧
      paths.mapM (Split.load s') = .ok splits ∧
      (∀ l content, (∀ path ∈ paths, ∀ k, disk'.locate (s'.full path) ≠ .ok (l, k)) →
        (disk'.find? l = some (.file content) ↔ disk.find? l = some (.file content))) ∧
      (Vacant s output → splits.length ≤ 100000 →
        (Store.list s' output = .ok ((List.range splits.length).map splitName) ↔
          ¬ LeavesInside s output)) := by
  obtain ⟨s, last, hcreate, hplan, rfl⟩ := plan_eq_ok h
  obtain ⟨splits, made, hsplits, hmade, hsaves⟩ := planIn_eq_ok hplan
  have hopened := (DiskStore.create_eq_ok hcreate).2
  obtain ⟨hpaths, hsaved⟩ := saveSplits_eq_ok hsaves
  have hindices : paths = (List.range splits.length).map (splitPath output) := by
    rw [hpaths, map_join_splitFiles, List.range_eq_range']
  refine ⟨s, splits, hcreate, hsplits, ?_⟩
  intro s'
  refine ⟨hindices, ?_, ?_, ?_, ?_⟩
  · rw [hindices]
    exact List.Nodup.map (splitPath_injective output) List.nodup_range
  · exact mapM_load_of_saveEach hpaths hsaved
  · intro l content hother
    have hpath : ∀ w ∈ splits.zip (splitFiles 0 splits.length), ∀ k,
        (s'.below output).disk.locate ((s'.below output).full w.2) ≠ .ok (l, k) := by
      intro w hw k
      have hfile := (List.of_mem_zip hw).2
      rw [DiskStore.full_below s' output (isPlain_of_mem_splitFiles hfile).1.not_isAbsolute]
      exact hother _ (hpaths ▸ List.mem_map_of_mem hfile) k
    have hsaves := DiskStore.file_iff_of_saveEach hsaved hpath content
    exact hsaves.trans ((file_iff_of_makeDirectories hmade content).trans (hopened l content))
  · exact fun hvacant hn => hvacant.list_iff hmade hsaved hn

/-- Two files, a split for each, and a directory that is missing, with another one on the way to it. -/
theorem plan_leaves_splits_two :
    let settings : Settings := { storage := { basePath := ⟨"data"⟩ } }
    let unit : Tree := .file (Bundle.single {}).encode
    let disk : Disk := ⟨.directory [("data", .directory [("a.wu", unit), ("b.wu", unit)])], [], rfl⟩
    let paths : List Path := [⟨"b/x/../out/split-00000.bin"⟩, ⟨"b/x/../out/split-00001.bin"⟩]
    ∃ disk', plan settings ["a.wu", "b.wu"] none ⟨"b/x/../out"⟩ disk = (.ok paths, disk') ∧
      Store.list (DiskStore.on settings.storage disk') ⟨"b/x/../out"⟩ =
        .ok ["split-00000.bin", "split-00001.bin"] := by
  intro settings unit disk paths
  have hplanned : plan settings ["a.wu", "b.wu"] none ⟨"b/x/../out"⟩ disk = (.ok paths, _) :=
    Prod.ext (toOption_eq_some_iff.1 (by decide +kernel)) rfl
  refine ⟨_, hplanned, ?_⟩
  obtain ⟨s, splits, hcreate, -, hpaths, -, -, -, hlist⟩ := plan_leaves_splits hplanned
  have hthere : disk.contains settings.storage.basePath := by decide +kernel
  rw [DiskStore.create, if_pos hthere] at hcreate
  cases hcreate
  have hlength : 2 = splits.length :=
    (congrArg List.length hpaths).trans (by rw [List.length_map, List.length_range])
  have hvacant : Vacant (DiskStore.on settings.storage disk) ⟨"b/x/../out"⟩ :=
    ⟨by decide, by decide +kernel⟩
  have hstays : ¬ LeavesInside (DiskStore.on settings.storage disk) ⟨"b/x/../out"⟩ := by
    rintro ⟨front, name, hfront, hinside⟩
    have hsteps : (DiskStore.on settings.storage disk).disk.stepsFromRoot
        ((DiskStore.on settings.storage disk).full ⟨"b/x/../out"⟩) =
          ["data", "b", "x", "..", "out"] := by decide +kernel
    -- nowhere on the way are the steps inside the directory
    have houtside : ∀ front ∈ ["data", "b", "x", "..", "out"].inits,
        (spelled [] front).tail ≠ spelled [] ["data", "b", "x", "..", "out"] := by decide +kernel
    rw [target, hsteps] at hinside
    rw [hsteps] at hfront
    have hmem := (List.mem_inits _ _).2 ((List.prefix_append front [".."]).trans hfront)
    exact houtside front hmem (by rw [hinside, List.tail_cons])
  have hlisted := (hlist hvacant (by omega)).2 hstays
  rw [← hlength] at hlisted
  exact hlisted

/-- The directory on the way up is made along with the others, so that the listing of the output
    directory, which was missing, holds more than its split. -/
theorem plan_up_leaves_directory :
    let settings : Settings := { storage := { basePath := ⟨"data"⟩ } }
    let unit : Tree := .file (Bundle.single {}).encode
    let disk : Disk := ⟨.directory [("data", .directory [("a.wu", unit)])], [], rfl⟩
    disk.contains ⟨"data/b/x/.."⟩ = false ∧
      ∃ disk', plan settings ["a.wu"] none ⟨"b/x/.."⟩ disk =
          (.ok [⟨"b/x/../split-00000.bin"⟩], disk') ∧
        Store.list (DiskStore.on settings.storage disk') ⟨"b/x/.."⟩ =
          .ok ["split-00000.bin", "x"] := by
  intro settings unit disk
  obtain ⟨disk', hdisk⟩ : ∃ disk', (plan settings ["a.wu"] none ⟨"b/x/.."⟩ disk).2 = disk' :=
    ⟨_, rfl⟩
  refine ⟨by decide +kernel, disk', Prod.ext (toOption_eq_some_iff.1 (by decide +kernel)) hdisk, ?_⟩
  have hlocate : disk'.locate ((DiskStore.on settings.storage disk').full ⟨"b/x/.."⟩) =
      .ok (["b", "data"], .directory) := by
    rw [← hdisk]
    exact toOption_eq_some_iff.1 (by decide +kernel)
  have hnames : disk'.names ["b", "data"] = ["x", "split-00000.bin"] := by
    rw [← hdisk]
    decide +kernel
  have hsorted : Store.sortNames (disk'.names ["b", "data"]) = ["split-00000.bin", "x"] := by
    refine Store.sortNames_eq (by decide) fun name => ?_
    rw [hnames]
    exact List.Perm.mem_iff (by decide)
  exact (DiskStore.list_of_locate hlocate).trans (congrArg _ hsorted)

end

end Commands

end Apportion
