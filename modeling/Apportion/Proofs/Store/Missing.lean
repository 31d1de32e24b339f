/-
  What is answered for a path at which there is nothing.

  * `Store.AllFail`: every request about what is at a path fails; reading a descriptor file and
    discovery fail as the request that they make first.
  * `Catalog.object?_of_missing`, `DiskStore.locate_of_missing`: what there is not.
  * `notFound_of_missing`: a catalog answers that the path does not exist, and so does a disk store
    unless something else is in the way; its listing answers so in any case.
  * `storage_failure_below_file`: a file in the way is told as a trouble of the store.
-/
import Apportion.Discovery
import Apportion.Proofs.Disk.Barred
import Apportion.Proofs.Store.Answers
import Apportion.Resolution

namespace Apportion

open Sequence

namespace Failure

variable {path : Path} {problem : String} {error : SystemError}

theorem ofSystem_of_notFound (h : error.kind = .notFound) :
    ofSystem path problem error = .notFound path := by
  simp only [ofSystem, h]

theorem ofSystem_of_ne (h : error.kind ≠ .notFound) :
    ofSystem path problem error = .storage path problem (some error.text) := by
  unfold ofSystem
  split
  · rename_i hkind
    exact absurd hkind h
  · rfl

end Failure

namespace Store

variable {σ : Type} [Store σ] {s : σ} {path : Path} {how : Failure → Prop}

/-- Every request about what is at a path fails, and it is told `how`. -/
structure AllFail (s : σ) (path : Path) (how : Failure → Prop) : Prop where
  stat : ∃ failure, Store.stat s path = .error failure ∧ how failure
  openRead : ∃ failure, Store.openRead s path = .error failure ∧ how failure
  blocks : ∀ start length, ∃ failure,
    Store.blocks s path start length = .error failure ∧ how failure
  descriptors : ∀ extension, ∃ failure,
    Resolution.descriptors extension s path.text = .error failure ∧ how failure
  references : ∃ failure, Discovery.references s [path.text] = .error failure ∧ how failure

theorem AllFail.imp {how' : Failure → Prop} (h : AllFail s path how)
    (himp : ∀ failure, how failure → how' failure) : AllFail s path how' where
  stat := h.stat.imp fun failure => And.imp_right (himp failure)
  openRead := h.openRead.imp fun failure => And.imp_right (himp failure)
  blocks start length := (h.blocks start length).imp fun failure => And.imp_right (himp failure)
  descriptors extension := (h.descriptors extension).imp fun failure => And.imp_right (himp failure)
  references := h.references.imp fun failure => And.imp_right (himp failure)

theorem descriptors_eq_error_of_openRead {failure : Failure}
    (h : Store.openRead s path = .error failure) (extension : String) :
    Resolution.descriptors extension s path.text = .error failure := by
  have hread : Store.read s path = .error failure := bind_eq_error_iff.2 (Or.inl h)
  have hbundle : Resolution.bundle s path.text = .error failure :=
    bind_eq_error_iff.2 (Or.inl hread)
  exact bind_eq_error_iff.2 (Or.inl hbundle)

theorem references_eq_error_of_stat {failure : Failure} (h : Store.stat s path = .error failure) :
    Discovery.references s [path.text] = .error failure := by
  have hexpand : Discovery.expand s path.text = .error failure := bind_eq_error_iff.2 (Or.inl h)
  refine bind_eq_error_iff.2 (Or.inl (mapM_eq_error_iff.2 ⟨[], path.text, [], rfl, ?_, hexpand⟩))
  simp

/-- Reading descriptors and discovery fail as opening the file and looking at it do. -/
theorem allFail_of (hstat : ∃ failure, Store.stat s path = .error failure ∧ how failure)
    (hopen : ∃ failure, Store.openRead s path = .error failure ∧ how failure)
    (hblocks : ∀ start length, ∃ failure,
      Store.blocks s path start length = .error failure ∧ how failure) :
    AllFail s path how where
  stat := hstat
  openRead := hopen
  blocks := hblocks
  descriptors extension :=
    hopen.imp fun _ h => ⟨descriptors_eq_error_of_openRead h.1 extension, h.2⟩
  references := hstat.imp fun _ h => ⟨references_eq_error_of_stat h.1, h.2⟩

end Store

/-! ## In a catalog -/

namespace Catalog

variable {c : Catalog} {path : Path}

theorem contains_eq_false_iff :
    Store.contains c path = false ↔ c.object? path = none ∧ c.below path = [] := by
  change ((c.object? path).isSome || c.isDirectory path) = false ↔ _
  rw [Bool.or_eq_false_iff, Option.isSome_eq_false_iff, Option.isNone_iff_eq_none, isDirectory,
    Bool.not_eq_false', List.isEmpty_iff]

theorem allFail_of_missing (h : Store.contains c path = false) :
    Store.AllFail c path (· = .notFound path) := by
  obtain ⟨hobject, hbelow⟩ := contains_eq_false_iff.1 h
  refine Store.allFail_of ⟨_, ?_, rfl⟩ ⟨_, ?_, rfl⟩ fun start length => ⟨_, ?_, rfl⟩
  · change c.stat path = _
    simp [stat, hobject, isDirectory, hbelow]
  · change c.openRead path = _
    simp only [openRead, hobject]
  · change c.blocks path start length = _
    simp only [blocks, hobject]

theorem list_of_missing (h : Store.contains c path = false) :
    Store.list c path = .error (.notFound path) := by
  obtain ⟨hobject, hbelow⟩ := contains_eq_false_iff.1 h
  change c.list path = _
  simp [list, hobject, hbelow]

end Catalog

/-! ## On a disk -/

namespace DiskStore

variable {s : DiskStore} {path : Path} {error : SystemError}

theorem contains_eq_false_iff :
    Store.contains s path = false ↔ ∃ error, s.disk.locate (s.full path) = .error error := by
  change s.disk.contains (s.full path) = false ↔ _
  unfold Disk.contains
  cases s.disk.locate (s.full path) <;> simp

theorem list_of_locate_eq_error (h : s.disk.locate (s.full path) = .error error) :
    Store.list s path = .error (.notFound (s.full path)) := by
  change s.list path = _
  simp only [list, h]

theorem stat_of_locate_eq_error (h : s.disk.locate (s.full path) = .error error) :
    Store.stat s path = .error (.ofSystem (s.full path) "failed to read metadata" error) := by
  change s.stat path = _
  simp only [stat, h]

theorem openRead_of_locate_eq_error (h : s.disk.locate (s.full path) = .error error) :
    Store.openRead s path = .error (.ofSystem (s.full path) "failed to open file" error) := by
  change s.openRead path = _
  simp only [openRead, h]

theorem blocks_of_locate_eq_error (h : s.disk.locate (s.full path) = .error error)
    (start length : UInt64) : Store.blocks s path start length =
      .error (.ofSystem (s.full path) "failed to read metadata" error) :=
  bind_eq_error_iff.2 (Or.inl (stat_of_locate_eq_error h))

/-- Where a path leads nowhere, requests fail with what the system says. -/
theorem allFail_of_locate_eq_error (h : s.disk.locate (s.full path) = .error error) :
    Store.AllFail s path fun failure =>
      ∃ problem, failure = .ofSystem (s.full path) problem error :=
  Store.allFail_of ⟨_, stat_of_locate_eq_error h, _, rfl⟩ ⟨_, openRead_of_locate_eq_error h, _, rfl⟩
    fun start length => ⟨_, blocks_of_locate_eq_error h start length, _, rfl⟩

end DiskStore

namespace Store

/-- **A missing path is told as one.**  Where a store says that there is nothing, listing answers
    that the path does not exist.  In a catalog so does every other request, and on a disk unless
    the path is barred by something else than what is missing, which is then told as a trouble of
    the store. -/
theorem notFound_of_missing (c : Catalog) (s : DiskStore) (path : Path) :
    (contains c path = false →
      list c path = .error (.notFound path) ∧ AllFail c path (· = .notFound path)) ∧
    (contains s path = false →
      list s path = .error (.notFound (s.full path)) ∧
      (¬ s.disk.Barred (s.full path) → AllFail s path (· = .notFound (s.full path))) ∧
      (s.disk.Barred (s.full path) → AllFail s path fun failure =>
        ∃ problem cause, failure = .storage (s.full path) problem (some cause))) := by
  refine ⟨fun h => ⟨Catalog.list_of_missing h, Catalog.allFail_of_missing h⟩, fun h => ?_⟩
  obtain ⟨error, herror⟩ := DiskStore.contains_eq_false_iff.1 h
  have hkind := Disk.kind_eq_notFound_iff herror
  have hfail := DiskStore.allFail_of_locate_eq_error herror
  refine ⟨DiskStore.list_of_locate_eq_error herror, fun hbarred => ?_, fun hbarred => ?_⟩
  · refine hfail.imp ?_
    rintro failure ⟨problem, rfl⟩
    exact Failure.ofSystem_of_notFound (hkind.2 hbarred)
  · refine hfail.imp ?_
    rintro failure ⟨problem, rfl⟩
    exact ⟨problem, error.text, Failure.ofSystem_of_ne fun e => hkind.1 e hbarred⟩

/-- A path below a file, in a catalog and on a disk, and one below nothing. -/
theorem notFound_of_missing_below :
    let c := Catalog.empty.put ⟨"f"⟩ [1]
    let s : DiskStore :=
      ⟨⟨"data"⟩, 8, 4, ["h"], ⟨.directory [("data", .directory [("f", .file [1])])], [], rfl⟩⟩
    contains c ⟨"f/x"⟩ = false ∧ AllFail c ⟨"f/x"⟩ (· = .notFound ⟨"f/x"⟩) ∧
      contains s ⟨"g/x"⟩ = false ∧ ¬ s.disk.Barred (s.full ⟨"g/x"⟩) ∧
      AllFail s ⟨"g/x"⟩ (· = .notFound (s.full ⟨"g/x"⟩)) ∧
      contains s ⟨"f/x"⟩ = false ∧ s.disk.Barred (s.full ⟨"f/x"⟩) ∧
      AllFail s ⟨"f/x"⟩ fun failure =>
        ∃ problem cause, failure = .storage (s.full ⟨"f/x"⟩) problem (some cause) := by
  intro c s
  have hc : contains c ⟨"f/x"⟩ = false := by decide +kernel
  have hg : contains s ⟨"g/x"⟩ = false := by decide +kernel
  have hf : contains s ⟨"f/x"⟩ = false := by decide +kernel
  have hmissing : s.disk.locate (s.full ⟨"g/x"⟩) = .error .missing := by decide +kernel
  have hsteps : s.disk.stepsFromRoot (s.full ⟨"f/x"⟩) = ["data", "f"] ++ "x" :: [] := by
    decide +kernel
  have hwalk : s.disk.walk ["data", "f"] = .ok ["f", "data"] := by decide +kernel
  have hbarred : s.disk.Barred (s.full ⟨"f/x"⟩) := .file (by decide +kernel) hsteps hwalk rfl
  have hfree : ¬ s.disk.Barred (s.full ⟨"g/x"⟩) := (Disk.kind_eq_notFound_iff hmissing).1 rfl
  obtain ⟨hcatalog, hbelow⟩ := notFound_of_missing c s ⟨"f/x"⟩
  obtain ⟨-, hnowhere⟩ := notFound_of_missing c s ⟨"g/x"⟩
  exact ⟨hc, (hcatalog hc).2, hg, hfree, (hnowhere hg).2.1 hfree, hf, hbarred,
    (hbelow hf).2.2 hbarred⟩

/-- **A file in the way is told as a trouble of the store.**  There is nothing below a file, and
    listing says so; but looking at such a path, opening it and discovery fail otherwise. -/
theorem storage_failure_below_file :
    let s : DiskStore :=
      ⟨⟨"data"⟩, 8, 4, ["h"], ⟨.directory [("data", .directory [("f", .file [1])])], [], rfl⟩⟩
    let trouble (problem : String) : Failure :=
      .storage ⟨"data/f/x"⟩ problem (some "Not a directory (os error 20)")
    contains s ⟨"f/x"⟩ = false ∧ list s ⟨"f/x"⟩ = .error (.notFound ⟨"data/f/x"⟩) ∧
      stat s ⟨"f/x"⟩ = .error (trouble "failed to read metadata") ∧
      openRead s ⟨"f/x"⟩ = .error (trouble "failed to open file") ∧
      blocks s ⟨"f/x"⟩ 0 1 = .error (trouble "failed to read metadata") ∧
      Resolution.descriptors ".mwu" s "f/x" = .error (trouble "failed to open file") ∧
      Discovery.references s ["f/x"] = .error (trouble "failed to read metadata") := by
  intro s trouble
  have hfull : s.full ⟨"f/x"⟩ = ⟨"data/f/x"⟩ := by decide +kernel
  have hbelow : s.disk.locate (s.full ⟨"f/x"⟩) = .error .notDirectory := by decide +kernel
  have hlist := DiskStore.list_of_locate_eq_error hbelow
  have hstat := DiskStore.stat_of_locate_eq_error hbelow
  have hopen := DiskStore.openRead_of_locate_eq_error hbelow
  have hblocks := DiskStore.blocks_of_locate_eq_error hbelow 0 1
  rw [hfull] at hlist hstat hopen hblocks
  exact ⟨DiskStore.contains_eq_false_iff.2 ⟨_, hbelow⟩, hlist, hstat, hopen, hblocks,
    descriptors_eq_error_of_openRead hopen ".mwu", references_eq_error_of_stat hstat⟩

end Store

end Apportion
