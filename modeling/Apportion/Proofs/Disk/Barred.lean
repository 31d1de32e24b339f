/-
  Paths that lead nowhere, and why.

  * `Barred d p`: something else than a missing entry is in the way of a path: a file, or the limits
    that there are for names and paths.
  * `locate_eq_error_iff`: how following a path ends that leads nowhere.
  * `kind_eq_notFound_iff`: something is missing iff the path is not barred.
-/
import Apportion.Proofs.Disk.Reaching

namespace Apportion

namespace Disk

open Sequence

/-- Something else than a missing entry is in the way of a path. -/
inductive Barred (d : Disk) (p : Path) : Prop where
  /-- No path has a zero character. -/
  | zero : Char.ofNat 0 ∈ p.text.toList → Barred d p
  /-- No path is as long as this one. -/
  | longPath : maxPath < p.text.utf8ByteSize → Barred d p
  /-- There is a file where a step starts from. -/
  | file {front rest : List String} {name : String} {loc : Location} {content : Octets} :
      p.text ≠ "" → d.stepsFromRoot p = front ++ name :: rest → d.walk front = .ok loc →
      d.find? loc = some (.file content) → Barred d p
  /-- There is a step to a name as long as no entry has it. -/
  | longName {front rest : List String} {name : String} {loc : Location} :
      p.text ≠ "" → d.stepsFromRoot p = front ++ name :: rest → d.walk front = .ok loc →
      d.find? loc = some .directory → name ≠ "." → name ≠ ".." → maxName < name.utf8ByteSize →
      Barred d p
  /-- There is a file where a slash at the end asks for a directory. -/
  | slash {loc : Location} {content : Octets} :
      endsInSlash p → d.walk (d.stepsFromRoot p) = .ok loc → d.find? loc = some (.file content) →
      Barred d p

variable {d : Disk} {p : Path} {error : SystemError}

/-! ## How following a path ends -/

theorem walk_eq_error_iff {steps : List String} :
    d.walk steps = .error error ↔ d.follow steps = .error error := by
  rw [← (map_location_follow d steps).1]
  cases d.follow steps <;> simp [Except.map]

/-- **Where a path leads nowhere**: it is spelled as no path is, a step fails, or there is a file
    and not the directory asked for. -/
theorem locate_eq_error_iff : d.locate p = .error error ↔ checkSpelling p = .error error ∨
    checkSpelling p = .ok () ∧ (d.walk (d.stepsFromRoot p) = .error error ∨
      error = .notDirectory ∧ endsInSlash p ∧ ∃ loc content,
        d.walk (d.stepsFromRoot p) = .ok loc ∧ d.find? loc = some (.file content)) := by
  rw [locate, bind_eq_error_iff]
  refine or_congr Iff.rfl ⟨?_, ?_⟩
  · rintro ⟨⟨⟩, hspelling, h⟩
    refine ⟨hspelling, ?_⟩
    rcases bind_eq_error_iff.1 h with h | ⟨trail, htrail, h⟩
    · exact Or.inl (walk_eq_error_iff.2 h)
    · have hfind := ((map_location_follow d _).2 trail htrail).find?
      split at h
      · cases h
      · rename_i content hfile
        split at h
        · rename_i hslash
          cases h
          refine Or.inr ⟨rfl, hslash, trail.location, content, ?_, by rw [hfind, hfile]; rfl⟩
          exact walk_eq_ok_iff.2 ⟨trail, htrail, rfl, hfind⟩
        · cases h
  · rintro ⟨hspelling, h⟩
    refine ⟨(), hspelling, bind_eq_error_iff.2 ?_⟩
    rcases h with h | ⟨rfl, hslash, loc, content, hwalk, hfind⟩
    · exact Or.inl (walk_eq_error_iff.1 h)
    · obtain ⟨trail, htrail, rfl, htree⟩ := walk_eq_ok_iff.1 hwalk
      refine Or.inr ⟨trail, htrail, ?_⟩
      cases hkind : trail.tree d.root with
      | directory entries =>
        rw [hfind, hkind] at htree
        cases htree
      | file content' =>
        simp only [hslash, if_true]
        rfl

theorem kind_of_checkSpelling (h : checkSpelling p = .error error) :
    error.kind = .notFound ↔ Char.ofNat 0 ∉ p.text.toList ∧ p.text = "" := by
  unfold checkSpelling at h
  split at h
  · rename_i hzero
    cases h
    simp [SystemError.zeroInside, List.contains_iff_mem.1 hzero]
  · rename_i hzero
    split at h
    · rename_i hempty
      cases h
      simp_all [SystemError.missing]
    · rename_i hempty
      split at h
      · cases h
        simp_all [SystemError.nameTooLong]
      · cases h

/-- A step fails where there is no directory, with a name that is too long, or with one that is
    missing. -/
theorem stepFrom_eq_error {loc : Location} {name : String}
    (h : d.stepFrom loc name = .error error) :
    d.find? loc ≠ some .directory ∧ error = .notDirectory ∨
    d.find? loc = some .directory ∧ name ≠ "." ∧ name ≠ ".." ∧
      (maxName < name.utf8ByteSize ∧ error = .nameTooLong ∨
        name.utf8ByteSize ≤ maxName ∧ error = .missing) := by
  unfold stepFrom at h
  split at h
  · rename_i hdir
    split at h
    · cases h
    split at h
    · cases h
    rename_i hhere hup
    refine Or.inr ⟨hdir, hhere, hup, ?_⟩
    split at h
    · rename_i hlong
      cases h
      exact Or.inl ⟨hlong, rfl⟩
    · rename_i hlong
      split at h <;> cases h
      exact Or.inr ⟨Nat.not_lt.1 hlong, rfl⟩
  · rename_i hdir
    cases h
    exact Or.inl ⟨hdir, rfl⟩

/-! ## Barred paths -/

/-- A step that fails ends the walk. -/
theorem walk_eq_error {front rest : List String} {name : String} {loc : Location}
    (hfront : d.walk front = .ok loc) (h : d.stepFrom loc name = .error error) :
    d.walk (front ++ name :: rest) = .error error :=
  foldlM_eq_error_iff.2 ⟨front, name, rest, loc, rfl, hfront, h⟩

/-- What a barred path is answered. -/
theorem Barred.locate_eq_error (h : d.Barred p) :
    ∃ error, d.locate p = .error error ∧ error.kind ≠ .notFound := by
  cases hspelling : checkSpelling p with
  | error error =>
    refine ⟨error, locate_eq_error_iff.2 (Or.inl hspelling), fun hkind => ?_⟩
    obtain ⟨hzero, hempty⟩ := (kind_of_checkSpelling hspelling).1 hkind
    cases h with
    | zero h => exact hzero h
    | longPath h => rw [hempty] at h; exact absurd h (by decide)
    | file hne | longName hne => exact hne hempty
    | slash hslash => rw [endsInSlash, hempty] at hslash; exact absurd hslash (by decide)
  | ok =>
    obtain ⟨hzero, -, hshort⟩ := checkSpelling_eq_ok_iff.1 hspelling
    suffices hwalk : ∃ error, (d.walk (d.stepsFromRoot p) = .error error ∨
        error = .notDirectory ∧ endsInSlash p ∧ ∃ loc content,
          d.walk (d.stepsFromRoot p) = .ok loc ∧ d.find? loc = some (.file content)) ∧
        error.kind ≠ .notFound by
      obtain ⟨error, hwalk, hkind⟩ := hwalk
      exact ⟨error, locate_eq_error_iff.2 (Or.inr ⟨hspelling, hwalk⟩), hkind⟩
    cases h with
    | zero h => exact absurd h hzero
    | longPath h => exact absurd h (Nat.not_lt.2 hshort)
    | @file front rest name loc content _ hsteps hfront hfile =>
      have hstep : d.stepFrom loc name = .error .notDirectory := by simp only [stepFrom, hfile]
      exact ⟨_, Or.inl (hsteps ▸ walk_eq_error hfront hstep), by decide⟩
    | @longName front rest name loc _ hsteps hfront hdir hhere hup hlong =>
      have hstep : d.stepFrom loc name = .error .nameTooLong := by
        simp only [stepFrom, hdir, hhere, hup, hlong, if_false, if_true]
      exact ⟨_, Or.inl (hsteps ▸ walk_eq_error hfront hstep), by decide⟩
    | slash hslash hwalk hfile => exact ⟨_, Or.inr ⟨rfl, hslash, _, _, hwalk, hfile⟩, by decide⟩

/-- A step that fails misses an entry, or else the path is barred. -/
theorem barred_or_missing {front rest : List String} {name : String} {loc : Location}
    (hne : p.text ≠ "") (hsteps : d.stepsFromRoot p = front ++ name :: rest)
    (hfront : d.walk front = .ok loc) (h : d.stepFrom loc name = .error error) :
    d.Barred p ∨ error = .missing := by
  rcases stepFrom_eq_error h with ⟨hdir, -⟩ | ⟨hdir, hhere, hup, ⟨hlong, -⟩ | ⟨-, hmissing⟩⟩
  · obtain ⟨trail, -, -, hfind⟩ := walk_eq_ok_iff.1 hfront
    cases hkind : trail.tree d.root with
    | directory entries => exact absurd (hfind.trans (by rw [hkind]; rfl)) hdir
    | file content => exact Or.inl (.file hne hsteps hfront (hfind.trans (by rw [hkind]; rfl)))
  · exact Or.inl (.longName hne hsteps hfront hdir hhere hup hlong)
  · exact Or.inr hmissing

/-- **Something is missing iff nothing else bars the path.** -/
theorem kind_eq_notFound_iff (h : d.locate p = .error error) :
    error.kind = .notFound ↔ ¬ d.Barred p := by
  constructor
  · intro hkind hbarred
    obtain ⟨error', herror, hother⟩ := hbarred.locate_eq_error
    cases h.symm.trans herror
    exact hother hkind
  · intro hbarred
    rcases locate_eq_error_iff.1 h with hspelling | ⟨hspelling, h⟩
    · refine (kind_of_checkSpelling hspelling).2 ⟨fun hzero => hbarred (.zero hzero), ?_⟩
      by_contra hne
      -- a path that is neither empty nor too long, without a zero character, is spelled well
      have hok : checkSpelling p = .ok () := checkSpelling_eq_ok_iff.2
        ⟨fun hzero => hbarred (.zero hzero), fun hnil => hne (String.toList_eq_nil_iff.1 hnil),
          Nat.not_lt.1 fun hlong => hbarred (.longPath hlong)⟩
      cases hok.symm.trans hspelling
    have hne : p.text ≠ "" := fun hempty =>
      (checkSpelling_eq_ok_iff.1 hspelling).2.1 (String.toList_eq_nil_iff.2 hempty)
    rcases h with hwalk | ⟨-, hslash, loc, content, hwalk, hfile⟩
    · obtain ⟨front, name, rest, loc, hsteps, hfront, hstep⟩ := foldlM_eq_error_iff.1 hwalk
      rcases barred_or_missing hne hsteps hfront hstep with hbar | rfl
      · exact absurd hbar hbarred
      · rfl
    · exact absurd (.slash hslash hwalk hfile) hbarred

end Disk

end Apportion
