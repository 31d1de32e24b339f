/-
  Making a directory and all those above it.

  * `locate_of_makeDirectories`: the path leads to a directory then.
  * `UpFromInside`: steps that go up out of a directory inside another one; `exists_directory`: they
    lead nowhere without it.
  * `names_of_makeDirectories`: a directory that was missing or had nothing in it has nothing in it,
    unless its path goes up so.
-/
import Apportion.Proofs.Disk.Additions
import Apportion.Proofs.Disk.Reaching

namespace Apportion

namespace Disk

open Sequence

variable {d d' : Disk} {p : Path} {loc : Location}

theorem contains_iff : d.contains p ↔ ∃ found, d.locate p = .ok found := by
  unfold contains
  cases d.locate p <;> simp

theorem isDirectory_iff : d.isDirectory p ↔ ∃ loc, d.locate p = .ok (loc, .directory) := by
  unfold isDirectory
  rcases d.locate p with _ | ⟨loc, _ | _⟩ <;> simp

/-! ## Where the path leads -/

theorem locate_of_makeDirectory (h : d.makeDirectory p = .ok d') :
    ∃ loc, d'.locate p = .ok (loc, .directory) := by
  have hgrows := fun loc => Grows.makeDirectory h loc
  obtain ⟨above, name, hparent, -, rfl⟩ := makeDirectory_eq_ok_iff.1 h
  exact ⟨_, locate_of_place hparent (fun _ => rfl) (hgrows []) fun _ => rfl⟩

theorem locate_of_makeLineage {parents : List Path} (hp : p.text ≠ "")
    (h : d.makeLineage (p :: parents) = (.ok (), d')) : ∃ loc, d'.locate p = .ok (loc, .directory) := by
  have hempty : ¬ p.text.isEmpty := fun e => hp (String.isEmpty_iff.1 e)
  rw [makeLineage, if_neg hempty] at h
  split at h
  · rename_i hmade
    cases h
    exact locate_of_makeDirectory hmade
  split at h
  · split at h
    · cases h
    · split at h
      · rename_i hmade
        cases h
        exact locate_of_makeDirectory hmade
      · split at h
        · rename_i hthere
          cases h
          exact isDirectory_iff.1 hthere
        · cases h
  · split at h
    · rename_i hthere
      cases h
      exact isDirectory_iff.1 hthere
    · cases h

theorem exists_lineage (p : Path) : ∃ parents, lineage p = p :: parents := by
  unfold lineage lineageWithin
  split <;> exact ⟨_, rfl⟩

/-- **The path leads to a directory** once it was made. -/
theorem locate_of_makeDirectories (hp : p.text ≠ "") (h : d.makeDirectories p = (.ok (), d')) :
    ∃ loc, d'.locate p = .ok (loc, .directory) := by
  obtain ⟨parents, hlineage⟩ := exists_lineage p
  rw [makeDirectories, hlineage] at h
  exact locate_of_makeLineage hp h

/-! ## Directories with nothing in them -/

/-- Steps go up out of a directory that lies at a location. -/
def UpFromInside (steps : List String) (loc : Location) : Prop :=
  ∃ front name, front ++ [".."] <+: steps ∧ spelled [] front = name :: loc

/-- Where steps lead that go up out of a directory inside, there is that directory. -/
theorem UpFromInside.exists_directory {steps : List String} (h : UpFromInside steps loc)
    (hwalk : d.walk steps = .ok loc) : ∃ name, d.find? (name :: loc) = some .directory := by
  obtain ⟨front, name, ⟨behind, rfl⟩, hfront⟩ := h
  rw [walk_append, walk_append] at hwalk
  obtain ⟨above, habove, -⟩ := bind_eq_ok_iff.1 hwalk
  obtain ⟨inside, hinside, hup⟩ := bind_eq_ok_iff.1 habove
  rw [walk_eq_spelled hinside, hfront] at hup
  obtain ⟨_, hstep, -⟩ := foldlM_cons_eq_ok_iff.1 hup
  exact ⟨name, (stepFrom_eq_ok_iff.1 hstep).1⟩

/-- Steps that pass through an entry of the directory that they lead to go up out of it. -/
theorem Passes.upFromInside {steps : List String} {name : String}
    (h : Passes steps (name :: spelled [] steps)) : UpFromInside steps (spelled [] steps) := by
  obtain ⟨front, ⟨rest, rfl⟩, hfront⟩ := h
  have hrest : spelled ([] ++ name :: spelled [] (front ++ rest)) rest =
      spelled [] (front ++ rest) := by
    rw [List.nil_append, hfront, ← spelled_append]
  obtain ⟨inside, behind, rfl, hinside⟩ := exists_up_of_spelled hrest
  refine ⟨front ++ inside, name, ⟨behind, by simp⟩, ?_⟩
  rw [spelled_append, ← hfront]
  exact hinside

/-- **Where there was nothing, nothing is** once a directory was made, if its path does not go up out
    of a directory inside it. -/
theorem names_of_makeDirectories (hp : p.text ≠ "")
    (hnames : d.names (spelled [] (d.stepsFromRoot p)) = [])
    (hup : ¬ UpFromInside (d.stepsFromRoot p) (spelled [] (d.stepsFromRoot p)))
    (h : d.makeDirectories p = (.ok (), d')) :
    ∃ l, d'.locate p = .ok (l, .directory) ∧ d'.names l = [] := by
  obtain ⟨l, hlocate⟩ := locate_of_makeDirectories hp h
  have hgrows := Grows.makeDirectories d p []
  have hadds := AddsOnly.makeDirectories d p
  rw [h] at hgrows hadds
  obtain rfl := walk_eq_spelled (locate_eq_ok_iff.1 hlocate).2.1
  refine ⟨_, hlocate, List.eq_nil_iff_forall_not_mem.2 fun name hname => ?_⟩
  rw [hgrows.stepsFromRoot, mem_names_iff] at hname
  have hnone : d.find? (name :: spelled [] (d.stepsFromRoot p)) = none := by
    by_contra hold
    rw [← ne_eq, ← Option.isSome_iff_ne_none, ← mem_names_iff, hnames] at hold
    cases hold
  exact hup (hadds _ hnone (Option.isSome_iff_ne_none.1 hname)).upFromInside

end Disk

end Apportion
