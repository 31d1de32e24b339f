/-
  The names of entries, and the paths that are spelled with them.

  * `IsEntryName`: a name that an entry of a directory can have.
  * `isEntryName_of_locateParent`: whatever a request is about to make has one.
  * `NamesEntry`, `addsOnly_makeDirectories`: hence directories are made with such names.
  * `locate_entry_iff`: below a directory, such a name leads to the entry.
-/
import Apportion.Proofs.Disk.Additions
import Apportion.Proofs.Disk.Reaching

namespace Apportion

namespace Disk

open Sequence

/-- A name that an entry of a directory can have: one step, and neither `.` nor `..`. -/
def IsEntryName (name : String) : Prop :=
  '/' ∉ name.toList ∧ name ≠ "" ∧ name ≠ "." ∧ name ≠ ".."

variable {d d' : Disk} {p : Path} {loc l above : Location} {name : String}

theorem IsEntryName.names_eq (h : IsEntryName name) : (⟨name⟩ : Path).names = [name] := by
  rw [Path.names, List.splitOn_eq_singleton h.1, List.map_singleton, String.ofList_toList]

theorem IsEntryName.isPlain (h : IsEntryName name) : (⟨name⟩ : Path).IsPlain := by
  intro name' hname'
  rw [h.names_eq, List.mem_singleton] at hname'
  rw [hname']
  exact h.2

/-! ## What is made -/

/-- A relative path with a spelling has a step. -/
theorem stepsOf_ne_nil (hrelative : p.isAbsolute = false) (hp : p.text.toList ≠ []) :
    stepsOf p ≠ [] := by
  obtain ⟨c, cs, hcs⟩ := List.exists_cons_of_ne_nil hp
  have hslash : c ≠ '/' := by
    rintro rfl
    rw [Path.isAbsolute, hcs] at hrelative
    cases hrelative
  obtain ⟨piece, pieces, hpieces⟩ := List.exists_cons_of_ne_nil (List.splitOn_ne_nil '/' cs)
  rw [stepsOf, hcs, Text.splitOn_cons_of_ne hslash hpieces, List.filter_cons_of_pos (by simp),
    List.map_cons]
  exact List.cons_ne_nil _ _

theorem slash_notMem_of_mem_stepsOf (h : name ∈ stepsOf p) : '/' ∉ name.toList ∧ name ≠ "" := by
  obtain ⟨piece, hpiece, rfl⟩ := List.mem_map.1 h
  obtain ⟨hpiece, hne⟩ := List.mem_filter.1 hpiece
  rw [String.toList_ofList]
  refine ⟨Text.notMem_of_mem_splitOn hpiece, fun hempty => of_decide_eq_true hne ?_⟩
  rw [← String.toList_ofList (l := piece), hempty]
  rfl

/-- The entry that a path is about is a step of the path itself. -/
theorem mem_stepsOf_of_locateParent (h : d.locateParent p = .ok (above, some name)) :
    name ∈ stepsOf p := by
  obtain ⟨hspelling, steps, hsteps, -⟩ := locateParent_eq_ok_iff.1 h
  obtain ⟨-, hne, -⟩ := checkSpelling_eq_ok_iff.1 hspelling
  unfold stepsFromRoot at hsteps
  split at hsteps
  · rw [hsteps]
    exact List.mem_append_right _ (List.mem_singleton_self name)
  · -- the last step is one of the path's own
    rename_i hrelative
    have hown := stepsOf_ne_nil (Bool.eq_false_iff.2 hrelative) hne
    have hlast := congrArg List.getLast? hsteps
    rw [List.getLast?_append_of_ne_nil _ hown, List.getLast?_concat] at hlast
    exact List.mem_of_getLast? hlast

/-- The entry that a path is about has the name of one. -/
theorem isEntryName_of_locateParent (h : d.locateParent p = .ok (above, some name)) :
    IsEntryName name := by
  obtain ⟨-, -, -, -, -, hhere, hup, -⟩ := locateParent_eq_ok_iff.1 h
  obtain ⟨hslash, hempty⟩ := slash_notMem_of_mem_stepsOf (mem_stepsOf_of_locateParent h)
  exact ⟨hslash, hempty, hhere, hup⟩

/-- A location with the name of an entry. -/
def NamesEntry (l : Location) : Prop := ∃ name above, l = name :: above ∧ IsEntryName name

theorem addsOnly_makeDirectory (h : d.makeDirectory p = .ok d') : AddsOnly NamesEntry d d' := by
  obtain ⟨above, name, hparent, -, rfl⟩ := makeDirectory_eq_ok_iff.1 h
  obtain ⟨-, -, -, -, hdir, -⟩ := locateParent_eq_ok_iff.1 hparent
  exact .put hdir (fun _ => rfl) fun _ => ⟨name, above, rfl, isEntryName_of_locateParent hparent⟩

/-- **Directories are made with the names of entries.** -/
theorem addsOnly_makeDirectories (d : Disk) (p : Path) :
    AddsOnly NamesEntry d (d.makeDirectories p).2 :=
  makeLineage_induction (.refl _) .trans (fun _ _ _ _ _ hmade => addsOnly_makeDirectory hmade) d

/-! ## Paths to entries -/

/-- **Below a directory, the name of an entry leads to it**, if it is not too long. -/
theorem locate_entry_iff {k : Tree.Kind} (hdir : d.locate p = .ok (loc, .directory))
    (hname : IsEntryName name) : d.locate (p.join ⟨name⟩) = .ok (l, k) ↔
      l = name :: loc ∧ d.find? (name :: loc) = some k ∧
        checkSpelling (p.join ⟨name⟩) = .ok () ∧ name.utf8ByteSize ≤ maxName := by
  obtain ⟨-, hwalk, hfind, -⟩ := locate_eq_ok_iff.1 hdir
  have hstep : d.walk (d.stepsFromRoot (p.join ⟨name⟩)) = .ok l ↔
      l = name :: loc ∧ (d.find? (name :: loc)).isSome ∧ name.utf8ByteSize ≤ maxName := by
    rw [stepsFromRoot_join d hname.isPlain, hname.names_eq, walk_append, hwalk]
    change [name].foldlM d.stepFrom loc = .ok l ↔ _
    rw [foldlM_cons_eq_ok_iff]
    simp only [List.foldlM_nil, stepFrom_eq_ok_iff, hfind, hname.2.2.1, hname.2.2.2, ne_eq]
    constructor
    · rintro ⟨mid, ⟨-, ⟨h, -⟩ | ⟨h, -⟩ | ⟨-, -, hlong, hthere, rfl⟩⟩, hmid⟩
      · exact absurd h id
      · exact absurd h id
      · cases hmid
        exact ⟨rfl, hthere, hlong⟩
    · rintro ⟨rfl, hthere, hlong⟩
      exact ⟨_, ⟨trivial, Or.inr (Or.inr ⟨id, id, hlong, hthere, rfl⟩)⟩, rfl⟩
  rw [locate_eq_ok_iff, hstep, endsInSlash_join hname.isPlain]
  constructor
  · rintro ⟨hspelling, ⟨rfl, -, hlong⟩, hfound, -⟩
    exact ⟨rfl, hfound, hspelling, hlong⟩
  · rintro ⟨rfl, hfound, hspelling, hlong⟩
    exact ⟨hspelling, ⟨rfl, by rw [hfound]; rfl, hlong⟩, hfound, fun h => by cases h⟩

end Disk

end Apportion
