/-
  Disks that grow: requests add directories and files, and give one file new content.

  * `Grows loc d d'`: `d'` has all that `d` has, and only the file at `loc` is new or has other
    content.
  * `Grows.walk`, `Grows.locate`: paths lead where they led.
  * `makeLineage_induction`: what one directory made does, all those made on the way do.
  * `Grows.makeDirectories`, `Grows.createFile`, `Grows.writeAt`: what requests do to a disk.
  * `locate_of_createFile`: the path of a file that was created leads to it.
-/
import Apportion.Proofs.Disk.Walk

namespace Apportion

namespace Disk

open Sequence

/-- All that is on `d` is on `d'`, where only the file at `loc` may be new or have other content. -/
structure Grows (loc : Location) (d d' : Disk) : Prop where
  workingDirectory : d'.workingDirectory = d.workingDirectory
  directory : ∀ l, d.find? l = some .directory → d'.find? l = some .directory
  file : ∀ l content, d.find? l = some (.file content) →
    ∃ content', d'.find? l = some (.file content') ∧ (l ≠ loc → content' = content)
  only : ∀ l content, d'.find? l = some (.file content) →
    l = loc ∨ ∃ content', d.find? l = some (.file content')

variable {d d' d'' : Disk} {loc : Location}

namespace Grows

theorem refl (loc : Location) (d : Disk) : Grows loc d d :=
  ⟨rfl, fun _ h => h, fun _ content h => ⟨content, h, fun _ => rfl⟩,
    fun _ content h => Or.inr ⟨content, h⟩⟩

theorem trans (h : Grows loc d d') (h' : Grows loc d' d'') : Grows loc d d'' where
  workingDirectory := h'.workingDirectory.trans h.workingDirectory
  directory l hl := h'.directory l (h.directory l hl)
  file l content hl := by
    obtain ⟨content', hl', hsame⟩ := h.file l content hl
    obtain ⟨content'', hl'', hsame'⟩ := h'.file l content' hl'
    exact ⟨content'', hl'', fun hne => (hsame' hne).trans (hsame hne)⟩
  only l content hl := by
    rcases h'.only l content hl with heq | ⟨content', hl'⟩
    · exact Or.inl heq
    · exact h.only l content' hl'

theorem isSome (h : Grows loc d d') {l : Location} (hl : (d.find? l).isSome) :
    (d'.find? l).isSome := by
  obtain ⟨k, hk⟩ := Option.isSome_iff_exists.1 hl
  cases k with
  | directory => rw [h.directory l hk]; rfl
  | file content =>
    obtain ⟨content', hl', -⟩ := h.file l content hk
    rw [hl']; rfl

/-- Elsewhere there are the same files, with the same content. -/
theorem file_iff (h : Grows loc d d') {l : Location} (hne : l ≠ loc) (content : Octets) :
    d'.find? l = some (.file content) ↔ d.find? l = some (.file content) := by
  constructor
  · intro hl'
    obtain ⟨content', hl⟩ := (h.only l content hl').resolve_left hne
    obtain ⟨content'', hl'', hsame⟩ := h.file l content' hl
    rw [hl', Option.some_inj, Tree.Kind.file.injEq] at hl''
    rw [hl, hl'', hsame hne]
  · intro hl
    obtain ⟨content', hl', hsame⟩ := h.file l content hl
    rw [hl', hsame hne]

/-! ## Paths lead where they led -/

theorem stepFrom (h : Grows loc d d') {l l' : Location} {name : String}
    (hstep : d.stepFrom l name = .ok l') : d'.stepFrom l name = .ok l' := by
  obtain ⟨hdir, hcases⟩ := stepFrom_eq_ok_iff.1 hstep
  refine stepFrom_eq_ok_iff.2 ⟨h.directory l hdir, ?_⟩
  rcases hcases with hhere | hup | ⟨hhere, hup, hlong, hthere, hl'⟩
  · exact Or.inl hhere
  · exact Or.inr (Or.inl hup)
  · exact Or.inr (Or.inr ⟨hhere, hup, hlong, h.isSome hthere, hl'⟩)

theorem foldlM_stepFrom (h : Grows loc d d') {steps : List String} {l l' : Location}
    (hsteps : steps.foldlM d.stepFrom l = .ok l') : steps.foldlM d'.stepFrom l = .ok l' := by
  induction steps generalizing l with
  | nil => exact hsteps
  | cons name steps ih =>
    obtain ⟨mid, hmid, hsteps⟩ := foldlM_cons_eq_ok_iff.1 hsteps
    exact foldlM_cons_eq_ok_iff.2 ⟨mid, h.stepFrom hmid, ih hsteps⟩

theorem walk (h : Grows loc d d') {steps : List String} {l : Location}
    (hwalk : d.walk steps = .ok l) : d'.walk steps = .ok l :=
  h.foldlM_stepFrom hwalk

theorem stepsFromRoot (h : Grows loc d d') (p : Path) :
    d'.stepsFromRoot p = d.stepsFromRoot p := by
  simp only [Disk.stepsFromRoot, h.workingDirectory]

/-- A path leads to the file that it led to, with the content it had unless it is at `loc`. -/
theorem locate (h : Grows loc d d') {p : Path} {l : Location} {content : Octets}
    (hp : d.locate p = .ok (l, .file content)) :
    ∃ content', d'.locate p = .ok (l, .file content') ∧ (l ≠ loc → content' = content) := by
  obtain ⟨hspelling, hwalk, hfind, hslash⟩ := locate_eq_ok_iff.1 hp
  obtain ⟨content', hfind', hsame⟩ := h.file l content hfind
  refine ⟨content', locate_eq_ok_iff.2 ⟨hspelling, ?_, hfind', fun e => ?_⟩, hsame⟩
  · rw [h.stepsFromRoot]
    exact h.walk hwalk
  · cases hslash e

theorem locate_directory (h : Grows loc d d') {p : Path} {l : Location}
    (hp : d.locate p = .ok (l, .directory)) : d'.locate p = .ok (l, .directory) := by
  obtain ⟨hspelling, hwalk, hfind, -⟩ := locate_eq_ok_iff.1 hp
  refine locate_eq_ok_iff.2 ⟨hspelling, ?_, h.directory l hfind, fun _ => rfl⟩
  rw [h.stepsFromRoot]
  exact h.walk hwalk

end Grows

/-! ## Making directories -/

theorem makeDirectory_eq_ok_iff {p : Path} : d.makeDirectory p = .ok d' ↔ ∃ above name,
    d.locateParent p = .ok (above, some name) ∧ d.find? (name :: above) = none ∧
      d' = d.place name above .directory := by
  rw [makeDirectory, bind_eq_ok_iff]
  constructor
  · rintro ⟨⟨above, entry⟩, hparent, h⟩
    cases entry with
    | none => cases h
    | some name =>
      dsimp only at h
      split at h
      · cases h
      · rename_i hnone
        cases h
        exact ⟨above, name, hparent, hnone, rfl⟩
  · rintro ⟨above, name, hparent, hnone, rfl⟩
    refine ⟨(above, some name), hparent, ?_⟩
    simp only [hnone]
    rfl

/-- What holds of nothing done, of one directory made, and of one thing done after another, holds
    of all directories made on the way, also when it ends in a failure. -/
theorem makeLineage_induction {R : Disk → Disk → Prop} {paths : List Path} (refl : ∀ d, R d d)
    (trans : ∀ {d d' d''}, R d d' → R d' d'' → R d d'')
    (make : ∀ p ∈ paths, p.text ≠ "" → ∀ {d d'}, d.makeDirectory p = .ok d' → R d d') (d : Disk) :
    R d (d.makeLineage paths).2 := by
  induction paths with
  | nil => exact refl d
  | cons p parents ih =>
    have ih := ih fun q hq => make q (List.mem_cons_of_mem p hq)
    unfold Disk.makeLineage
    split
    · exact refl d
    · rename_i hempty
      have hp : ∀ {d d'}, d.makeDirectory p = .ok d' → R d d' :=
        make p List.mem_cons_self fun e => hempty (String.isEmpty_iff.2 e)
      split
      · rename_i d' hmade
        exact hp hmade
      split
      · -- what is above is missing, and is made first
        split
        · rename_i hparents
          rwa [hparents] at ih
        · rename_i mid hparents
          rw [hparents] at ih
          split
          · rename_i d' hmade
            exact trans ih (hp hmade)
          · split <;> exact ih
      · split <;> exact refl d

namespace Grows

theorem place_directory {name : String} {above : Location} (hdir : d.find? above = some .directory)
    (hnone : d.find? (name :: above) = none) (loc : Location) :
    Grows loc d (d.place name above .directory) := by
  have hfind : ∀ l, (d.place name above .directory).find? l =
      if l = name :: above then some .directory else d.find? l := find?_place hdir fun _ => rfl
  have hne : ∀ l k, d.find? l = some k → l ≠ name :: above := by
    rintro l k hl rfl
    rw [hnone] at hl
    cases hl
  refine ⟨workingDirectory_place .., fun l hl => ?_, fun l content hl => ⟨content, ?_, fun _ => rfl⟩,
    fun l content hl => ?_⟩
  · rw [hfind, if_neg (hne l _ hl), hl]
  · rw [hfind, if_neg (hne l _ hl), hl]
  · rw [hfind] at hl
    split at hl
    · cases hl
    · exact Or.inr ⟨content, hl⟩

theorem makeDirectory {p : Path} (h : d.makeDirectory p = .ok d') (loc : Location) :
    Grows loc d d' := by
  obtain ⟨above, name, hparent, hnone, rfl⟩ := makeDirectory_eq_ok_iff.1 h
  obtain ⟨-, steps, -, -, hdir, -⟩ := locateParent_eq_ok_iff.1 hparent
  exact place_directory hdir hnone loc

theorem makeLineage (d : Disk) (paths : List Path) (loc : Location) :
    Grows loc d (d.makeLineage paths).2 :=
  makeLineage_induction (refl loc) trans (fun _ _ _ _ _ hmade => makeDirectory hmade loc) d

theorem makeDirectories (d : Disk) (p : Path) (loc : Location) :
    Grows loc d (d.makeDirectories p).2 :=
  makeLineage d _ loc

end Grows

/-- Files are as they were when directories have been made. -/
theorem file_iff_of_makeDirectories {p : Path} {result : Except SystemError Unit}
    (h : d.makeDirectories p = (result, d')) {l : Location} (content : Octets) :
    d'.find? l = some (.file content) ↔ d.find? l = some (.file content) := by
  -- any location but `l` itself will do
  have hgrows := Grows.makeDirectories d p ("" :: l)
  rw [h] at hgrows
  exact hgrows.file_iff (List.cons_ne_self "" l).symm content

/-! ## Making and writing files -/

/-- A path leads to what was put at the entry that it is about. -/
theorem locate_of_place {p : Path} {above : Location} {name : String} {k : Tree.Kind}
    (hparent : d.locateParent p = .ok (above, some name))
    (hk : d.find? (name :: above) = some .directory → k = .directory)
    (hgrows : Grows loc d (d.place name above k)) (hslash : endsInSlash p → k = .directory) :
    (d.place name above k).locate p = .ok (name :: above, k) := by
  obtain ⟨hspelling, steps, hsteps, hwalk, hdir, hhere, hup, hlong⟩ :=
    locateParent_eq_ok_iff.1 hparent
  have hfind : (d.place name above k).find? (name :: above) = some k := by
    rw [find?_place hdir hk, if_pos rfl]
  refine locate_eq_ok_iff.2 ⟨hspelling, ?_, hfind, hslash⟩
  rw [hgrows.stepsFromRoot, hsteps, walk_append]
  refine bind_eq_ok_iff.2 ⟨above, hgrows.walk hwalk, ?_⟩
  refine foldlM_cons_eq_ok_iff.2
    ⟨name :: above, stepFrom_eq_ok_iff.2 ⟨hgrows.directory _ hdir, ?_⟩, rfl⟩
  exact Or.inr (Or.inr ⟨hhere, hup, hlong, by rw [hfind]; rfl, rfl⟩)

theorem createFile_eq_ok_iff {p : Path} :
    d.createFile p = .ok (loc, d') ↔ ∃ name above, d.locateParent p = .ok (above, some name) ∧
      ¬ endsInSlash p ∧ d.find? (name :: above) ≠ some .directory ∧ loc = name :: above ∧
      d' = d.place name above (.file []) := by
  rw [createFile, bind_eq_ok_iff]
  constructor
  · rintro ⟨⟨above, entry⟩, hparent, h⟩
    cases entry with
    | none => cases h
    | some name =>
      dsimp only at h
      split at h
      · cases h
      · rename_i hfree
        rw [not_or] at hfree
        cases h
        exact ⟨name, above, hparent, hfree.1, hfree.2, rfl, rfl⟩
  · rintro ⟨name, above, hparent, hslash, hfree, rfl, rfl⟩
    refine ⟨(above, some name), hparent, ?_⟩
    simp only [hslash, hfree, Bool.false_eq_true, or_self, if_false]
    rfl

theorem find?_writeAt {content : Octets} (h : d.find? loc = some (.file content)) (offset : Nat)
    {data : Octets} (hdata : data ≠ []) (l : Location) :
    (d.writeAt loc offset data).find? l =
      if l = loc then some (.file (overwrite content offset data)) else d.find? l := by
  cases loc with
  | nil => rw [find?_nil] at h; cases h
  | cons name above =>
    have hempty : data.isEmpty = false := List.isEmpty_eq_false_iff.2 hdata
    simp only [writeAt, h, hempty, Bool.false_eq_true, if_false]
    refine find?_place (find?_above (by rw [h]; rfl)) (fun hdir => ?_) l
    rw [h] at hdir
    cases hdir

theorem writeAt_of_ne_file (h : ∀ content, d.find? loc ≠ some (.file content)) (offset : Nat)
    (data : Octets) : d.writeAt loc offset data = d := by
  unfold writeAt
  split
  · rename_i content hfind
    exact absurd hfind (h content)
  · rfl

theorem writeAt_nil (d : Disk) (loc : Location) (offset : Nat) : d.writeAt loc offset [] = d := by
  unfold writeAt
  split <;> rfl

theorem overwrite_nil (data : Octets) : overwrite [] 0 data = data := by
  simp [overwrite]

theorem workingDirectory_writeAt (d : Disk) (loc : Location) (offset : Nat) (data : Octets) :
    (d.writeAt loc offset data).workingDirectory = d.workingDirectory := by
  unfold writeAt
  split
  · split
    · rfl
    · exact workingDirectory_place ..
  · rfl

/-- A file that is new or has new content, and nothing else changed. -/
theorem Grows.of_find? {content : Octets} (hw : d'.workingDirectory = d.workingDirectory)
    (hloc : d.find? loc ≠ some .directory)
    (h : ∀ l, d'.find? l = if l = loc then some (.file content) else d.find? l) :
    Grows loc d d' := by
  refine ⟨hw, fun l hl => ?_, fun l content' hl => ?_, fun l content' hl => ?_⟩
  · have hne : l ≠ loc := by
      rintro rfl
      exact hloc hl
    rw [h, if_neg hne, hl]
  · by_cases heq : l = loc
    · exact ⟨content, by rw [h, if_pos heq], fun hne => absurd heq hne⟩
    · exact ⟨content', by rw [h, if_neg heq, hl], fun _ => rfl⟩
  · by_cases heq : l = loc
    · exact Or.inl heq
    · exact Or.inr ⟨content', by rw [← hl, h, if_neg heq]⟩

theorem Grows.createFile {p : Path} (h : d.createFile p = .ok (loc, d')) : Grows loc d d' := by
  obtain ⟨name, above, hparent, -, hfree, rfl, rfl⟩ := createFile_eq_ok_iff.1 h
  obtain ⟨-, steps, -, -, hdir, -⟩ := locateParent_eq_ok_iff.1 hparent
  exact of_find? (workingDirectory_place ..) hfree (find?_place hdir fun e => absurd e hfree)

theorem Grows.writeAt {content : Octets} (h : d.find? loc = some (.file content)) (offset : Nat)
    (data : Octets) : Grows loc d (d.writeAt loc offset data) := by
  by_cases hdata : data = []
  · rw [hdata, writeAt_nil]
    exact refl loc d
  · refine of_find? (workingDirectory_writeAt ..) ?_ (find?_writeAt h offset hdata)
    rw [h]
    simp only [ne_eq, Option.some.injEq, reduceCtorEq, not_false_eq_true]

/-- The path of a file that was created leads to it. -/
theorem locate_of_createFile {p : Path} (h : d.createFile p = .ok (loc, d')) :
    d'.locate p = .ok (loc, .file []) := by
  have hgrows := Grows.createFile h
  obtain ⟨name, above, hparent, hslash, hfree, rfl, rfl⟩ := createFile_eq_ok_iff.1 h
  exact locate_of_place hparent (fun e => absurd e hfree) hgrows fun e => absurd e hslash

end Disk

end Apportion
