/-
  Planning into one output directory again and again.

  A split takes the place of the file that has its name, and no file is ever taken away.

  * `overlaid`: lists laid over each other; `getElem?_overlaid`: each place shows the first of them
    that reaches so far.
  * `collect`: the splits in the files of a directory.
  * `RunsInto`, `Runs`: one run, and runs one after the other with anything in between that leaves
    the output directory alone.
  * `Holds`: a directory has the files of given splits, and no others.  `Holds.run` says what one
    run makes of it and `Runs.holds` what all of them do.
  * `plan_again_collects`: what is collected after a run are the splits of the runs laid over each
    other; these are the splits of the last run iff no run before it made more of them, and
    `plan_again_leaves_more` shows one that did.
-/
import Apportion.Proofs.Commands
import Apportion.Proofs.Disk.Entries

namespace Apportion

open Sequence

/-! ## Lists laid over each other -/

section
variable {α : Type}

/-- What can be seen of lists that are laid over each other, the first one uppermost. -/
def overlaid : List (List α) → List α
  | [] => []
  | l :: ls => l ++ (overlaid ls).drop l.length

theorem getElem?_append_drop (l l' : List α) (k : Nat) :
    (l ++ l'.drop l.length)[k]? = l[k]?.or l'[k]? := by
  by_cases hk : k < l.length
  · rw [List.getElem?_append_left hk, List.getElem?_eq_getElem hk, Option.some_or]
  · rw [Nat.not_lt] at hk
    rw [List.getElem?_append_right hk, List.getElem?_drop, Nat.add_sub_cancel' hk,
      List.getElem?_eq_none hk, Option.none_or]

/-- Each place shows the first of the lists that reaches so far. -/
theorem getElem?_overlaid (ls : List (List α)) (k : Nat) :
    (overlaid ls)[k]? = ls.findSome? fun l => l[k]? := by
  induction ls with
  | nil => rfl
  | cons l ls ih =>
    rw [overlaid, getElem?_append_drop, ih, List.findSome?_cons]
    cases l[k]? <;> rfl

theorem length_overlaid_le_iff {ls : List (List α)} {n : Nat} :
    (overlaid ls).length ≤ n ↔ ∀ l ∈ ls, l.length ≤ n := by
  induction ls with
  | nil => simp [overlaid]
  | cons l ls ih =>
    rw [List.forall_mem_cons, ← ih, overlaid, List.length_append, List.length_drop]
    omega

/-- The uppermost list alone is seen iff none below it is longer. -/
theorem overlaid_perm_iff {l : List α} {ls : List (List α)} :
    (overlaid (l :: ls)).Perm l ↔ ∀ l' ∈ ls, l'.length ≤ l.length := by
  constructor
  · intro h
    exact (List.forall_mem_cons.1 (length_overlaid_le_iff.1 (Nat.le_of_eq h.length_eq))).2
  · intro h
    rw [overlaid, List.drop_eq_nil_of_le (length_overlaid_le_iff.2 h), List.append_nil]

end

namespace Commands

open Disk

/-! ## What is in a directory -/

section
variable {σ : Type} [Store σ]

/-- Whether a store tells of a file at a path. -/
def isFile (s : σ) (path : Path) : Bool :=
  match Store.stat s path with
  | .ok stat => !stat.isDirectory
  | .error _ => false

/-- The splits in the files that the listing of a directory names. -/
def collect (s : σ) (directory : Path) : Except Failure (List Split) := do
  let names ← Store.list s directory
  let files := (names.map fun name => directory.join ⟨name⟩).filter (isFile s)
  files.mapM (Split.load s)

end

theorem isFile_iff {s : DiskStore} {path : Path} :
    isFile s path ↔ ∃ loc content, s.disk.locate (s.full path) = .ok (loc, .file content) := by
  unfold isFile
  change (match s.stat path with | .ok stat => !stat.isDirectory | .error _ => false) = true ↔ _
  unfold DiskStore.stat
  rcases s.disk.locate (s.full path) with _ | ⟨loc, _ | content⟩ <;> simp

/-- The directory at `loc`, which the path `output` below `base` leads to, has a file for each of
    these splits under the name of its index, and no other file. -/
structure Holds (base output : Path) (loc : Location) (splits : List Split) (d : Disk) : Prop where
  kept : ∀ k split, splits[k]? = some split → ∃ content, Split.decode content = .ok split ∧
    d.find? (splitName k :: loc) = some (.file content)
  only : ∀ name content, d.find? (name :: loc) = some (.file content) →
    ∃ k < splits.length, name = splitName k
  entries : ∀ name, (d.find? (name :: loc)).isSome → IsEntryName name
  /-- The paths to the files can be spelled, so that they lead there. -/
  spelled : ∀ k < splits.length, checkSpelling (base.join (splitPath output k)) = .ok () ∧
    (splitName k).utf8ByteSize ≤ maxName

theorem isEntryName_splitName (i : Nat) : IsEntryName (splitName i) :=
  ⟨slash_notMem_splitName i,
    isPlain_splitName i (splitName i) (names_splitName i ▸ List.mem_singleton_self _)⟩

section
variable {base output : Path} {loc : Location} {splits : List Split} {d d' : Disk}

/-- Where there is nothing there are no files. -/
theorem holds_nil (h : d.find? loc = none) : Holds base output loc [] d := by
  have hnone : ∀ name, d.find? (name :: loc) = none := by
    intro name
    by_contra hsome
    rw [find?_above (Option.isSome_iff_ne_none.2 hsome)] at h
    cases h
  refine ⟨by simp, fun name content hfile => ?_, fun name hsome => ?_, by simp⟩
  · rw [hnone] at hfile
    cases hfile
  · rw [hnone] at hsome
    cases hsome

theorem Holds.congr (h : Holds base output loc splits d)
    (hsame : ∀ inner, d'.find? (inner ++ loc) = d.find? (inner ++ loc)) :
    Holds base output loc splits d' := by
  have hfind : ∀ name, d'.find? (name :: loc) = d.find? (name :: loc) := fun name => hsame [name]
  exact ⟨by simpa only [hfind] using h.kept, by simpa only [hfind] using h.only,
    by simpa only [hfind] using h.entries, h.spelled⟩

end

/-! ## Collecting -/

section
variable {s : DiskStore} {output : Path} {loc : Location} {splits : List Split}
  (hdir : s.disk.locate (s.full output) = .ok (loc, .directory))
include hdir

/-- A split is loaded iff its file has it, and its path can be spelled. -/
theorem load_splitPath_iff {k : Nat} {split : Split} :
    Split.load s (splitPath output k) = .ok split ↔
      (∃ content, Split.decode content = .ok split ∧
        s.disk.find? (splitName k :: loc) = some (.file content)) ∧
      checkSpelling (s.full (splitPath output k)) = .ok () ∧
        (splitName k).utf8ByteSize ≤ maxName := by
  have hentry : ∀ l content, s.disk.locate (s.full (splitPath output k)) = .ok (l, .file content) ↔
      l = splitName k :: loc ∧ s.disk.find? (splitName k :: loc) = some (.file content) ∧
        checkSpelling (s.full (splitPath output k)) = .ok () ∧
          (splitName k).utf8ByteSize ≤ maxName := by
    intro l content
    rw [full_splitPath]
    exact locate_entry_iff hdir (isEntryName_splitName k)
  unfold Split.load
  simp only [bind_eq_ok_iff, DiskStore.read_eq_ok_iff, hentry]
  constructor
  · rintro ⟨content, ⟨l, -, hfile, hspelled⟩, hdecode⟩
    exact ⟨⟨content, hdecode, hfile⟩, hspelled⟩
  · rintro ⟨⟨content, hdecode, hfile⟩, hspelled⟩
    exact ⟨content, ⟨_, rfl, hfile, hspelled⟩, hdecode⟩

variable (h : Holds s.base output loc splits s.disk)
include h

theorem Holds.load {k : Nat} {split : Split} (hk : splits[k]? = some split) :
    Split.load s (splitPath output k) = .ok split :=
  (load_splitPath_iff hdir).2 ⟨h.kept k split hk, h.spelled k (List.getElem?_eq_some_iff.1 hk).1⟩

/-- The names listed that lead to files are those of the splits. -/
theorem Holds.perm_files :
    ((Store.sortNames (s.disk.names loc)).filter fun name =>
        isFile s (output.join ⟨name⟩)).Perm ((List.range splits.length).map splitName) := by
  refine (List.perm_ext_iff_of_nodup ((Store.nodup_sortNames _).filter _)
    (List.nodup_range.map splitName_injective)).2 fun name => ?_
  rw [List.mem_filter, Store.mem_sortNames, mem_names_iff, List.mem_map, isFile_iff]
  constructor
  · rintro ⟨hthere, l, content, hlocate⟩
    have hname := h.entries name hthere
    rw [DiskStore.full, Path.join_join s.base hname.isPlain.not_isAbsolute] at hlocate
    obtain ⟨-, hfile, -⟩ := (locate_entry_iff hdir hname).1 hlocate
    obtain ⟨k, hk, rfl⟩ := h.only name content hfile
    exact ⟨k, List.mem_range.2 hk, rfl⟩
  · rintro ⟨k, hk, rfl⟩
    rw [List.mem_range] at hk
    obtain ⟨content, -, hfile⟩ := h.kept k _ (List.getElem?_eq_getElem hk)
    refine ⟨by rw [hfile]; rfl, splitName k :: loc, content, ?_⟩
    have hpath := full_splitPath s output k
    rw [splitPath] at hpath
    rw [hpath]
    refine (locate_entry_iff hdir (isEntryName_splitName k)).2 ⟨rfl, hfile, ?_⟩
    rw [← hpath]
    exact h.spelled k hk

/-- **What is collected** are the splits that the directory holds. -/
theorem Holds.collect : ∃ found, collect s output = .ok found ∧ found.Perm splits := by
  have hloads : List.Forall₂ (fun name split => Split.load s (output.join ⟨name⟩) = .ok split)
      ((List.range splits.length).map splitName) splits := by
    refine List.forall₂_iff_get.2 ⟨by simp, fun k hk hk' => ?_⟩
    rw [List.get_eq_getElem, List.get_eq_getElem, List.getElem_map, List.getElem_range]
    exact h.load hdir (List.getElem?_eq_getElem hk')
  obtain ⟨found, hfound, hperm⟩ := List.perm_comp_forall₂ (h.perm_files hdir) hloads
  refine ⟨found, ?_, hperm⟩
  refine bind_eq_ok_iff.2 ⟨_, DiskStore.list_of_locate hdir, ?_⟩
  rw [List.filter_map, List.mapM_map, Function.comp_def, Function.comp_def]
  exact mapM_eq_ok_iff.2 hfound

end

/-! ## Runs -/

section
variable (base output : Path) (loc : Location)

/-- One run on the disk `d`: the store `s` is opened below `base`, planning makes `splits`, they are
    written to `output`, which leads to the directory at `loc`, and the disk is left as `d'`. -/
structure RunsInto (settings : Settings) (inputs : List String) (bound : Option UInt32) (d : Disk)
    (s : DiskStore) (splits : List Split) (d' : Disk) : Prop where
  below : settings.storage.basePath = base
  opened : DiskStore.create settings.storage d = (.ok s, s.disk)
  planned : splitsOf settings s inputs bound = .ok splits
  written : ∃ paths, plan settings inputs bound output d = (.ok paths, d')
  located : d'.locate (base.join output) = .ok (loc, .directory)

/-- Runs one after the other, and what is on the disk then: the splits of each run, those of the
    last one first.  In between anything may happen elsewhere. -/
inductive Runs (origin : Disk) : List (List Split) → Disk → Prop where
  | nothing : Runs origin [] origin
  | elsewhere {history : List (List Split)} {d d' : Disk} : Runs origin history d →
      (∀ inner, d'.find? (inner ++ loc) = d.find? (inner ++ loc)) → Runs origin history d'
  | run {history : List (List Split)} {settings : Settings} {inputs : List String}
      {bound : Option UInt32} {d : Disk} {s : DiskStore} {splits : List Split} {d' : Disk} :
      Runs origin history d → RunsInto base output loc settings inputs bound d s splits d' →
      Runs origin (splits :: history) d'

end

theorem create_adds {settings : StorageSettings} {disk disk' : Disk} {s : DiskStore}
    (h : DiskStore.create settings disk = (.ok s, disk')) :
    s.base = settings.basePath ∧ AddsOnly NamesEntry disk disk' := by
  unfold DiskStore.create at h
  split at h
  · cases h
    exact ⟨rfl, .refl _ _⟩
  · have hadds := addsOnly_makeDirectories disk settings.basePath
    split at h
    · rename_i hmade
      cases h
      rw [hmade] at hadds
      exact ⟨rfl, hadds⟩
    · cases h

section
variable {base output : Path} {loc : Location} {settings : Settings} {inputs : List String}
  {bound : Option UInt32} {d d' : Disk} {s : DiskStore} {splits : List Split}

/-- What one run does: directories are made, and then the splits are saved in one of them. -/
theorem RunsInto.steps (h : RunsInto base output loc settings inputs bound d s splits d') :
    s.base = base ∧ ∃ made, AddsOnly NamesEntry d made ∧
      (∀ l content, made.find? l = some (.file content) ↔ d.find? l = some (.file content)) ∧
      made.locate (s.full output) = .ok (loc, .directory) ∧
      Split.saveEach (({ s with disk := made } : DiskStore).below output)
        (splits.zip (splitFiles 0 splits.length)) =
          (.ok (), ({ s with disk := d' } : DiskStore).below output) := by
  obtain ⟨paths, hplan⟩ := h.written
  obtain ⟨s₁, last, hcreate, hplan, rfl⟩ := plan_eq_ok hplan
  cases h.opened.symm.trans hcreate
  obtain ⟨splits₁, made, hsplits, hmade, hsaves⟩ := planIn_eq_ok hplan
  cases h.planned.symm.trans hsplits
  obtain ⟨hbase, hadds⟩ := create_adds h.opened
  have hbase : s.base = base := hbase.trans h.below
  have hsaved := (saveSplits_eq_ok hsaves).2
  have hmore := addsOnly_makeDirectories s.disk (s.full output)
  rw [hmade] at hmore
  refine ⟨hbase, made, hadds.trans hmore, fun l content => ?_, ?_, hsaved⟩
  · exact (file_iff_of_makeDirectories hmade content).trans
      ((DiskStore.create_eq_ok h.opened).2 l content)
  · -- the directory that was made is the one that the path leads to in the end
    have hlast : last.disk.locate (s.full output) = .ok (loc, .directory) := by
      rw [DiskStore.full, hbase]
      exact h.located
    obtain ⟨-, hne, -⟩ := checkSpelling_eq_ok_iff.1 (locate_eq_ok_iff.1 hlast).1
    have hne : (s.full output).text ≠ "" := by
      intro hempty
      rw [hempty] at hne
      exact hne rfl
    obtain ⟨loc', hdir⟩ := locate_of_makeDirectories hne hmade
    have hdir' := DiskStore.locate_directory_of_saveEach
      (s := ({ s with disk := made } : DiskStore).below output) hsaved hdir
    cases hlast.symm.trans hdir'
    exact hdir

section
variable (h : RunsInto base output loc settings inputs bound d s splits d')
include h

/-- Each split is loaded from its path. -/
theorem RunsInto.load {k : Nat} {split : Split} (hk : splits[k]? = some split) :
    Split.load ({ s with disk := d' } : DiskStore) (splitPath output k) = .ok split := by
  obtain ⟨-, made, -, -, -, hsaved⟩ := h.steps
  obtain ⟨hlt, rfl⟩ := List.getElem?_eq_some_iff.1 hk
  have hloaded := mapM_eq_ok_iff.1
    (mapM_load_of_saveEach (s := { s with disk := made }) rfl hsaved)
  rw [map_join_splitFiles] at hloaded
  have hlt' : k < ((List.range' 0 splits.length).map (splitPath output)).length := by
    rwa [List.length_map, List.length_range']
  have hget := hloaded.get hlt' hlt
  rw [List.get_eq_getElem, List.getElem_map, List.getElem_range', Nat.one_mul, Nat.zero_add] at hget
  exact hget

theorem RunsInto.locate : ({ s with disk := d' } : DiskStore).disk.locate
    (({ s with disk := d' } : DiskStore).full output) = .ok (loc, .directory) := by
  rw [DiskStore.full, h.steps.1]
  exact h.located

/-- Files with other names than the splits stay as they were. -/
theorem RunsInto.file_iff {name : String} (hname : ∀ k < splits.length, name ≠ splitName k)
    (content : Octets) : d'.find? (name :: loc) = some (.file content) ↔
      d.find? (name :: loc) = some (.file content) := by
  obtain ⟨-, made, -, hfiles, -, hsaved⟩ := h.steps
  refine (DiskStore.file_iff_of_saveEach hsaved (fun w hw k hlocate => ?_) content).trans
    (hfiles _ content)
  obtain ⟨i, hi, hfile⟩ := List.mem_map.1 (List.of_mem_zip hw).2
  rw [← hfile, DiskStore.full_below _ output (isAbsolute_splitName i)] at hlocate
  obtain ⟨heq, -⟩ := (locate_entry_iff h.locate (isEntryName_splitName i)).1
    (full_splitPath { s with disk := d' } output i ▸ hlocate)
  rw [List.mem_range'_1] at hi
  exact hname i (by omega) (List.cons.inj heq).1

/-- What is new in the directory has the name of an entry. -/
theorem RunsInto.isEntryName {name : String} (hthere : (d'.find? (name :: loc)).isSome)
    (hold : d.find? (name :: loc) = none) : IsEntryName name := by
  obtain ⟨-, made, hadds, -, hdir, hsaved⟩ := h.steps
  have hmem := DiskStore.mem_names_of_saveEach
    (fun w hw => isPlain_of_mem_splitFiles (List.of_mem_zip hw).2)
    (locate_eq_ok_iff.1 hdir).2.1 hsaved name
  rcases hmem.1 (mem_names_iff.2 hthere) with hmade | hwork
  · rw [mem_names_iff] at hmade
    obtain ⟨name', above, heq, hentry⟩ := hadds _ hold (Option.isSome_iff_ne_none.1 hmade)
    cases heq
    exact hentry
  · obtain ⟨w, hw, rfl⟩ := List.mem_map.1 hwork
    obtain ⟨i, -, hfile⟩ := List.mem_map.1 (List.of_mem_zip hw).2
    rw [← hfile]
    exact isEntryName_splitName i

end

/-- **What one run makes of a directory.**  Its splits take the place of those with the same
    indices, and the others stay. -/
theorem Holds.run {files : List Split} (h : Holds base output loc files d)
    (hrun : RunsInto base output loc settings inputs bound d s splits d') :
    Holds base output loc (splits ++ files.drop splits.length) d' := by
  have hlength : ∀ k, k < (splits ++ files.drop splits.length).length ↔
      k < splits.length ∨ k < files.length := by
    intro k
    rw [List.length_append, List.length_drop]
    omega
  refine ⟨fun k split hk => ?_, fun name content hfile => ?_, fun name hthere => ?_, fun k hk => ?_⟩
  · rw [getElem?_append_drop] at hk
    cases hnewest : splits[k]? with
    | some split' =>
      rw [hnewest, Option.some_or] at hk
      cases hk
      exact ((load_splitPath_iff hrun.locate).1 (hrun.load hnewest)).1
    | none =>
      rw [hnewest, Option.none_or] at hk
      obtain ⟨content, hdecode, hfile⟩ := h.kept k split hk
      refine ⟨content, hdecode, (hrun.file_iff (fun i hi heq => ?_) content).2 hfile⟩
      rw [List.getElem?_eq_none_iff, splitName_injective heq] at hnewest
      omega
  · by_cases hname : ∃ k < splits.length, name = splitName k
    · obtain ⟨k, hk, rfl⟩ := hname
      exact ⟨k, (hlength k).2 (Or.inl hk), rfl⟩
    · have hold := (hrun.file_iff (fun k hk heq => hname ⟨k, hk, heq⟩) content).1 hfile
      obtain ⟨k, hk, rfl⟩ := h.only name content hold
      exact ⟨k, (hlength k).2 (Or.inr hk), rfl⟩
  · cases hold : d.find? (name :: loc) with
    | some k => exact h.entries name (by rw [hold]; rfl)
    | none => exact hrun.isEntryName hthere hold
  · rcases (hlength k).1 hk with hk | hk
    · have hspelled :=
        ((load_splitPath_iff hrun.locate).1 (hrun.load (List.getElem?_eq_getElem hk))).2
      rwa [DiskStore.full, hrun.steps.1] at hspelled
    · exact h.spelled k hk

/-- **What all runs make of a directory that was not there.** -/
theorem Runs.holds {origin : Disk} {history : List (List Split)} (hnew : origin.find? loc = none)
    (h : Runs base output loc origin history d) : Holds base output loc (overlaid history) d := by
  induction h with
  | nothing => exact holds_nil hnew
  | elsewhere _ hsame ih => exact ih.congr hsame
  | run _ hrun ih => exact ih.run hrun

/-- The splits planned hold the references discovered, each as often as it was. -/
theorem paths_of_splitsOf (h : splitsOf settings s inputs bound = .ok splits) :
    ∃ references, Discovery.references s inputs = .ok references ∧
      splits.flatMap Split.paths = references := by
  obtain ⟨references, hfound, hsplits⟩ := Plan.ofInputs_eq_ok_iff.1 h
  have hne := Plan.ne_nil_of_splits hsplits
  obtain ⟨estimates, hall, rfl⟩ := (Plan.splits_eq_ok_iff _ _ s bound hne).1 hsplits
  have happortioned : Plan.Apportioned settings.locality _ s references bound _ :=
    Plan.apportioned_splitsOf _ _ s hne hall
  exact ⟨references, hfound, happortioned.complete⟩

/-- **What is in an output directory after a run.**  If the directory was not there before the first
    of some runs, and nothing else got into it, then after the last one:

    * what is collected from it are the splits of all runs, those of later ones laid over those of
      earlier ones: under each index is the split of the latest run that made so many;
    * these are the splits of the last run iff no run before it made more of them;
    * and the references in them are then the ones discovered by the last run, each as often as it
      was discovered. -/
theorem plan_again_collects {origin : Disk} {history : List (List Split)}
    (hnew : origin.find? loc = none) (hruns : Runs base output loc origin history d)
    (hlast : RunsInto base output loc settings inputs bound d s splits d') :
    let s' : DiskStore := { s with disk := d' }
    ∃ references found, Discovery.references s inputs = .ok references ∧
      collect s' output = .ok found ∧ found.Perm (overlaid (splits :: history)) ∧
      (∀ k split, ((splits :: history).findSome? fun made => made[k]?) = some split →
        Split.load s' (splitPath output k) = .ok split) ∧
      (found.Perm splits ↔ ∀ earlier ∈ history, earlier.length ≤ splits.length) ∧
      (found.Perm splits → (found.flatMap Split.paths).Perm references) := by
  intro s'
  have hholds : Holds s'.base output loc (overlaid (splits :: history)) s'.disk :=
    hlast.steps.1 ▸ (hruns.run hlast).holds hnew
  obtain ⟨references, hreferences, hpaths⟩ := paths_of_splitsOf hlast.planned
  obtain ⟨found, hfound, hperm⟩ := hholds.collect hlast.locate
  refine ⟨references, found, hreferences, hfound, hperm, fun k split hk => ?_, ?_, fun hsame => ?_⟩
  · exact hholds.load hlast.locate ((getElem?_overlaid _ k).trans hk)
  · rw [← overlaid_perm_iff]
    exact ⟨hperm.symm.trans, hperm.trans⟩
  · rw [← hpaths]
    exact hsame.flatMap_right Split.paths

end

/-- A run on a disk that has the base directory. -/
theorem runsInto_of_contains {loc : Location} {d : Disk} {splits : List Split}
    (settings : Settings) (inputs : List String) (output : Path) (paths : List Path)
    (hthere : d.contains settings.storage.basePath)
    (hplanned : splitsOf settings (.on settings.storage d) inputs none = .ok splits)
    (hwritten : (plan settings inputs none output d).1 = .ok paths)
    (hlocated : (plan settings inputs none output d).2.locate
      (settings.storage.basePath.join output) = .ok (loc, .directory)) :
    RunsInto settings.storage.basePath output loc settings inputs none d (.on settings.storage d)
      splits (plan settings inputs none output d).2 where
  below := rfl
  opened := by
    rw [DiskStore.create, if_pos hthere]
    rfl
  planned := hplanned
  written := ⟨paths, Prod.ext hwritten rfl⟩
  located := hlocated

/-- One reference, and then two. -/
theorem plan_again_collects_two :
    let settings : Settings := { storage := { basePath := ⟨"data"⟩ } }
    let unit : Tree := .file (Bundle.single {}).encode
    let disk : Disk := ⟨.directory [("data", .directory [("a.wu", unit), ("b.wu", unit)])], [], rfl⟩
    let a : Split := .of ["a.wu"] []
    let b : Split := .of ["b.wu"] []
    disk.find? ["out", "data"] = none ∧ ∃ first second,
      RunsInto ⟨"data"⟩ ⟨"out"⟩ ["out", "data"] settings ["a.wu"] none disk
        (.on settings.storage disk) [a] first ∧
      RunsInto ⟨"data"⟩ ⟨"out"⟩ ["out", "data"] settings ["a.wu", "b.wu"] none first
        (.on settings.storage first) [a, b] second ∧
      ∃ found, collect (DiskStore.on settings.storage second) ⟨"out"⟩ = .ok found ∧
        found.Perm [a, b] := by
  intro settings unit disk a b
  have hnew : disk.find? ["out", "data"] = none := by decide +kernel
  have hrun₁ : RunsInto ⟨"data"⟩ ⟨"out"⟩ ["out", "data"] settings ["a.wu"] none disk
      (.on settings.storage disk) [a] _ :=
    runsInto_of_contains settings ["a.wu"] ⟨"out"⟩ [⟨"out/split-00000.bin"⟩] (by decide +kernel)
      (toOption_eq_some_iff.1 (by decide +kernel)) (toOption_eq_some_iff.1 (by decide +kernel))
      (toOption_eq_some_iff.1 (by decide +kernel))
  have hrun₂ : RunsInto ⟨"data"⟩ ⟨"out"⟩ ["out", "data"] settings ["a.wu", "b.wu"] none _
      (.on settings.storage (plan settings ["a.wu"] none ⟨"out"⟩ disk).2) [a, b] _ :=
    runsInto_of_contains settings ["a.wu", "b.wu"] ⟨"out"⟩
      [⟨"out/split-00000.bin"⟩, ⟨"out/split-00001.bin"⟩] (by decide +kernel)
      (toOption_eq_some_iff.1 (by decide +kernel)) (toOption_eq_some_iff.1 (by decide +kernel))
      (toOption_eq_some_iff.1 (by decide +kernel))
  obtain ⟨-, found, -, hfound, -, -, hiff, -⟩ :=
    plan_again_collects hnew (.run .nothing hrun₁) hrun₂
  exact ⟨hnew, _, _, hrun₁, hrun₂, found, hfound, hiff.2 (by simp)⟩

/-- Two references, and then one: the file of the second split is left, and what is collected is
    about a reference that the last run did not find. -/
theorem plan_again_leaves_more :
    let settings : Settings := { storage := { basePath := ⟨"data"⟩ } }
    let unit : Tree := .file (Bundle.single {}).encode
    let disk : Disk := ⟨.directory [("data", .directory [("a.wu", unit), ("b.wu", unit)])], [], rfl⟩
    let first := (plan settings ["a.wu", "b.wu"] none ⟨"out"⟩ disk).2
    let second := (plan settings ["a.wu"] none ⟨"out"⟩ first).2
    disk.contains ⟨"data/out"⟩ = false ∧
    plan settings ["a.wu", "b.wu"] none ⟨"out"⟩ disk =
      (.ok [⟨"out/split-00000.bin"⟩, ⟨"out/split-00001.bin"⟩], first) ∧
    plan settings ["a.wu"] none ⟨"out"⟩ first = (.ok [⟨"out/split-00000.bin"⟩], second) ∧
    splitsOf settings (.on settings.storage first) ["a.wu"] none = .ok [.of ["a.wu"] []] ∧
    Discovery.references (DiskStore.on settings.storage first) ["a.wu"] = .ok ["a.wu"] ∧
    ∃ found, collect (DiskStore.on settings.storage second) ⟨"out"⟩ = .ok found ∧
      ¬found.Perm [.of ["a.wu"] []] ∧ ¬(found.flatMap Split.paths).Perm ["a.wu"] := by
  intro settings unit disk first second
  have hrun₁ : RunsInto ⟨"data"⟩ ⟨"out"⟩ ["out", "data"] settings ["a.wu", "b.wu"] none disk
      (.on settings.storage disk) [.of ["a.wu"] [], .of ["b.wu"] []] first :=
    runsInto_of_contains settings ["a.wu", "b.wu"] ⟨"out"⟩
      [⟨"out/split-00000.bin"⟩, ⟨"out/split-00001.bin"⟩] (by decide +kernel)
      (toOption_eq_some_iff.1 (by decide +kernel)) (toOption_eq_some_iff.1 (by decide +kernel))
      (toOption_eq_some_iff.1 (by decide +kernel))
  have hrun₂ : RunsInto ⟨"data"⟩ ⟨"out"⟩ ["out", "data"] settings ["a.wu"] none first
      (.on settings.storage first) [.of ["a.wu"] []] second :=
    runsInto_of_contains settings ["a.wu"] ⟨"out"⟩ [⟨"out/split-00000.bin"⟩] (by decide +kernel)
      (toOption_eq_some_iff.1 (by decide +kernel)) (toOption_eq_some_iff.1 (by decide +kernel))
      (toOption_eq_some_iff.1 (by decide +kernel))
  have hholds := ((Runs.nothing.run hrun₁).run hrun₂).holds (by decide +kernel)
  obtain ⟨found, hfound, hperm⟩ := hholds.collect hrun₂.locate
  refine ⟨by decide +kernel, Prod.ext (toOption_eq_some_iff.1 (by decide +kernel)) rfl,
    Prod.ext (toOption_eq_some_iff.1 (by decide +kernel)) rfl, hrun₂.planned,
    toOption_eq_some_iff.1 (by decide +kernel), found, hfound, fun h => ?_, fun h => ?_⟩
  · exact absurd (hperm.length_eq.symm.trans h.length_eq) (by decide +kernel)
  · have hpaths := (hperm.flatMap_right Split.paths).length_eq.symm.trans h.length_eq
    exact absurd hpaths (by decide +kernel)

end Commands

end Apportion
