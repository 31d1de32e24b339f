/-
  The same files on a disk and in a catalog.

  * `Store.saveAll`, `Catalog.putAll`: files saved one after the other.
  * `Mirrors loc s c`: below the base directory of `s`, which is at `loc`, lies what `c` has.
  * `mirrors_empty`, `Mirrors.save`, `Mirrors.saveAll`: an empty directory mirrors the empty
    catalog, and saves that succeed keep it so; none puts a file where another one lies below.
  * `Mirrors.agree`: a disk agrees with the catalog that it mirrors.
  * `agree_of_saved`: after the same saves, the two are told apart by no reader.
-/
import Apportion.Proofs.Disk.Additions
import Apportion.Proofs.Disk.Reaching
import Apportion.Proofs.Store.Answers

namespace Apportion

open Sequence

/-! ## Saving files one after the other -/

namespace Store

variable {σ : Type} [Store σ]

/-- Saves files, each under its path, up to the first that cannot be saved. -/
def saveAll (s : σ) : List (Path × Octets) → Except Failure Unit × σ
  | [] => (.ok (), s)
  | (path, content) :: rest =>
    match save s path content with
    | (.error failure, s) => (.error failure, s)
    | (.ok (), s) => saveAll s rest

theorem saveAll_cons_eq_ok_iff {s s' : σ} {path : Path} {content : Octets}
    {rest : List (Path × Octets)} :
    saveAll s ((path, content) :: rest) = (.ok (), s') ↔
      ∃ mid, save s path content = (.ok (), mid) ∧ saveAll mid rest = (.ok (), s') := by
  rw [saveAll]
  constructor
  · intro h
    split at h
    · cases h
    · rename_i mid hmid
      exact ⟨mid, hmid, h⟩
  · rintro ⟨mid, hmid, h⟩
    rw [hmid]
    exact h

end Store

/-- Keeps files, each under its path. -/
def Catalog.putAll (c : Catalog) (files : List (Path × Octets)) : Catalog :=
  files.foldl (fun c file => c.put file.1 file.2) c

/-! ## The mirror -/

open Disk

/-- The base directory is there, with nothing in it. -/
def DiskStore.IsEmpty (s : DiskStore) : Prop :=
  ∃ trail, s.disk.follow (s.disk.stepsFromRoot s.base) = .ok trail ∧
    trail.tree s.disk.root = .directory []

/-- Below the base directory, which is at `loc`, lies what the catalog has and nothing else. -/
structure Mirrors (loc : Location) (s : DiskStore) (c : Catalog) : Prop where
  base : s.disk.walk (s.disk.stepsFromRoot s.base) = .ok loc
  holdsContent : c.HoldsContent
  find? : ∀ names ≠ [], s.disk.find? (names.reverse ++ loc) = c.kind? (names.map .entry)
  reaches : ∀ path : Path, path.IsPlain → (c.kind? path.components).isSome →
    s.disk.Reaches (s.full path) (path.names.reverse ++ loc)

variable {loc : Location} {s s' : DiskStore} {c : Catalog} {path : Path} {content : Octets}

/-- An empty directory mirrors the empty catalog. -/
theorem mirrors_empty (h : s.IsEmpty) : ∃ loc, Mirrors loc s .empty := by
  obtain ⟨trail, htrail, hnothing⟩ := h
  have hsound := (map_location_follow s.disk _).2 trail htrail
  have hkind : ∀ key, Catalog.empty.kind? key = none := fun _ => rfl
  refine ⟨trail.location, walk_eq_ok_iff.2 ⟨trail, htrail, rfl, hsound.find?⟩, ?_, ?_, ?_⟩
  · intro key object hobject
    cases hobject
  · intro names hne
    obtain ⟨name, names, rfl⟩ := List.exists_cons_of_ne_nil hne
    rw [hkind, Disk.find?, List.reverse_append, List.reverse_reverse, Tree.at?_append,
      hsound.at?_location, Option.bind_some, hnothing]
    exact congrArg (Option.map Tree.kind) (Tree.at?_ofKind_cons .directory name names)
  · intro path _ hsome
    rw [hkind] at hsome
    cases hsome

namespace Mirrors

/-- **A save that succeeds is mirrored.** -/
theorem save (h : Mirrors loc s c) (hpath : path.IsPlain)
    (hsave : Store.save s path content = (.ok (), s')) : Mirrors loc s' (c.put path content) := by
  obtain ⟨⟨disk, rfl⟩, hgrows, hlocate⟩ := DiskStore.locate_of_save hpath h.base hsave
  obtain ⟨hspelling, hwalk, -, -⟩ := locate_eq_ok_iff.1 hlocate
  have hbase : disk.walk (disk.stepsFromRoot s.base) = .ok loc := by
    rw [hgrows.stepsFromRoot]
    exact hgrows.walk h.base
  refine ⟨hbase, h.holdsContent.put hpath, fun names hne => ?_, fun q hq hsome => ?_⟩
  · have hentry : Function.Injective Path.Component.entry := fun _ _ => Path.Component.entry.inj
    rw [DiskStore.find?_of_save hpath h.base hsave, Catalog.kind?_put, hpath.components_eq,
      ← h.find? names hne]
    simp only [(List.map_injective_iff.2 hentry).eq_iff, List.prefix_map_iff_of_injective hentry]
    split
    · rfl
    · rename_i hproper
      split
      · rename_i hfront
        have hfile := DiskStore.find?_ne_file_of_save hpath h.base hsave hfront hproper
        rcases hold : s.disk.find? (names.reverse ++ loc) with _ | kept | _
        · rfl
        · exact absurd hold (hfile kept)
        · rfl
      · rw [Option.or_none]
  · rcases Catalog.isSome_kind?_put.1 hsome with hold | hfront
    · exact hgrows.reaches (h.reaches q hq hold)
    · exact Reaches.front ⟨hspelling, hwalk⟩ hbase hpath ((hq.components_prefix_iff hpath).1 hfront)

theorem saveAll (h : Mirrors loc s c) {files : List (Path × Octets)}
    (hplain : ∀ file ∈ files, file.1.IsPlain) (hsaved : Store.saveAll s files = (.ok (), s')) :
    Mirrors loc s' (c.putAll files) := by
  induction files generalizing s c with
  | nil =>
    cases hsaved
    exact h
  | cons file files ih =>
    obtain ⟨hfile, hplain⟩ := List.forall_mem_cons.1 hplain
    obtain ⟨mid, hmid, hsaved⟩ := Store.saveAll_cons_eq_ok_iff.1 hsaved
    exact ih (h.save hfile hmid) hplain hsaved

/-- A plain path leads to what the catalog has there. -/
theorem locate (h : Mirrors loc s c) (hpath : path.IsPlain) :
    (s.disk.locate (s.full path)).toOption =
      (c.kind? path.components).map fun k => (path.names.reverse ++ loc, k) := by
  have hfind := h.find? path.names path.names_ne_nil
  rw [← hpath.components_eq] at hfind
  cases hkind : c.kind? path.components with
  | none =>
    cases hlocate : s.disk.locate (s.full path) with
    | error error => rfl
    | ok found =>
      obtain ⟨l, k⟩ := found
      obtain ⟨-, hwalk, hthere, -⟩ := locate_eq_ok_iff.1 hlocate
      obtain ⟨above, habove, rfl⟩ := walk_join hpath hwalk
      cases h.base.symm.trans habove
      rw [hfind, hkind] at hthere
      cases hthere
  | some k =>
    obtain ⟨hspelling, hwalk⟩ := h.reaches path hpath (by rw [hkind]; rfl)
    exact toOption_eq_some_iff.2 (locate_eq_ok_iff.2 ⟨hspelling, hwalk, hfind.trans hkind,
      fun e => absurd e (Bool.eq_false_iff.1 (endsInSlash_join hpath))⟩)

/-- **A disk agrees with the catalog that it mirrors.** -/
theorem agree (h : Mirrors loc s c) : Store.Agree s c := by
  refine Store.agree_of_answers fun path hpath => ⟨_, _, _,
    DiskStore.answers_of_locate (h.locate hpath), h.holdsContent.answers path, ?_⟩
  intro name
  have hfind := h.find? (path.names ++ [name]) (List.append_ne_nil_of_right_ne_nil _ (by simp))
  rw [List.reverse_concat', List.map_append, ← hpath.components_eq] at hfind
  rw [Disk.mem_names_iff, Catalog.mem_names_iff h.holdsContent]
  exact iff_of_eq (congrArg (fun k? => k?.isSome = true) hfind)

end Mirrors

/-- **The same files on a disk and in memory.**  Files are saved one after the other, under plain
    paths, to a disk store with an empty base directory.  If all are saved, the store answers every
    request for a plain path as the catalog does that the files are put into: the same requests
    succeed, with the same values, save for the size of directories and whether a time is known.
    So the same references are discovered, and the same descriptors and splits read. -/
theorem Store.agree_of_saved {files : List (Path × Octets)} (hempty : s.IsEmpty)
    (hplain : ∀ file ∈ files, file.1.IsPlain) (hsaved : Store.saveAll s files = (.ok (), s')) :
    let c := Catalog.empty.putAll files
    Store.Agree s' c ∧
    (∀ inputs : List String, (∀ input ∈ inputs, (⟨input⟩ : Path).IsPlain) →
      (Discovery.references s' inputs).toOption = (Discovery.references c inputs).toOption) ∧
    (∀ extension reference : String, (⟨reference⟩ : Path).IsPlain →
      (Resolution.descriptors extension s' reference).toOption =
        (Resolution.descriptors extension c reference).toOption) ∧
    ∀ path : Path, path.IsPlain → (Split.load s' path).toOption = (Split.load c path).toOption := by
  intro c
  obtain ⟨loc, hmirrors⟩ := mirrors_empty hempty
  have hagree : Store.Agree s' c := (hmirrors.saveAll hplain hsaved).agree
  exact ⟨hagree, fun _ hinputs => hagree.references hinputs,
    fun extension _ hreference => hagree.descriptors extension hreference,
    fun _ hpath => hagree.load hpath⟩

/-- Two files in a directory that the first save makes, one of them saved twice. -/
theorem Store.agree_of_saved_twice :
    let s : DiskStore :=
      ⟨⟨"data"⟩, 8, 4, ["h"], ⟨.directory [("data", .directory [])], [], rfl⟩⟩
    let files : List (Path × Octets) := [(⟨"a/c"⟩, [1]), (⟨"a/b"⟩, []), (⟨"a/c"⟩, [2, 3])]
    s.IsEmpty ∧ (∀ file ∈ files, file.1.IsPlain) ∧
      ∃ s', Store.saveAll s files = (.ok (), s') ∧
        (Store.list s' ⟨"a"⟩).toOption = some ["b", "c"] ∧
        (Store.readSized s' ⟨"a/c"⟩).toOption = some (2, [2, 3]) := by
  intro s files
  have hsteps : s.disk.stepsFromRoot s.base = ["data"] := by decide +kernel
  have hempty : s.IsEmpty := ⟨[("data", .directory [])], by rw [hsteps]; rfl, rfl⟩
  have hplain : ∀ file ∈ files, file.1.IsPlain := by decide
  obtain ⟨⟨⟩, hok⟩ : ∃ a, (Store.saveAll s files).1 = .ok a :=
    exists_eq_ok_iff.2 (by decide +kernel)
  have hsaved : Store.saveAll s files = (.ok (), _) := Prod.ext hok rfl
  have hagree := (Store.agree_of_saved hempty hplain hsaved).1
  refine ⟨hempty, hplain, _, hsaved, ?_, ?_⟩
  · have hkind : (Catalog.empty.putAll files).kind? (Path.mk "a").components = some .directory := by
      decide +kernel
    have hnames : (Catalog.empty.putAll files).names ⟨"a"⟩ = ["c", "b"] := by decide +kernel
    rw [hagree.list _ (by decide)]
    refine (Catalog.toOption_list _ _).trans ?_
    have hdistinct : ["c", "b"].eraseDups = ["c", "b"] := by decide
    rw [if_pos hkind, hnames, Store.sortNames, hdistinct]
    simp [List.mergeSort]
  · rw [hagree.read _ (by decide)]
    decide +kernel

end Apportion
