/-
  Nothing but what was asked for: what requests add to a disk, and where.

  * `AddsOnly new d d'`: what is on `d'` and not on `d` is at a location of `new`.
  * `Along loc names`: the locations that names lead to from a location, one after the other.
  * `Passes steps l`: the first of some steps spell a location.  `AddsOnly.makeDirectories`,
    `AddsOnly.place`: requests for a path add where its steps pass, and `AddsOnly.along`: along its
    names if these never go up.
  * `find?_of_save`: below the base directory, a save leaves the file, the directories that it
    lies in, and what was there; `find?_ne_file_of_save`: no file is one of these directories.
-/
import Apportion.Proofs.Disk.Lineage
import Apportion.Proofs.Disk.Saving

namespace Apportion

namespace Disk

open Sequence

/-- Whatever is on `d'` and not on `d` is at a location of `new`. -/
def AddsOnly (new : Location → Prop) (d d' : Disk) : Prop :=
  ∀ l, d.find? l = none → d'.find? l ≠ none → new l

/-- The locations that names lead to from `loc`, one after the other. -/
def Along (loc : Location) (names : List String) (l : Location) : Prop :=
  ∃ front ≠ [], front <+: names ∧ l = front.reverse ++ loc

variable {d d' d'' : Disk} {loc : Location} {start names : List String} {p : Path}
  {new : Location → Prop}

namespace AddsOnly

theorem mono {new' : Location → Prop} (h : AddsOnly new d d')
    (hnew : ∀ l, d.find? l = none → new l → new' l) : AddsOnly new' d d' :=
  fun l hnone hsome => hnew l hnone (h l hnone hsome)

theorem refl (new : Location → Prop) (d : Disk) : AddsOnly new d d :=
  fun _ hnone hsome => absurd hnone hsome

theorem trans (h : AddsOnly new d d') (h' : AddsOnly new d' d'') : AddsOnly new d d'' := by
  intro l hnone hsome
  by_cases hmid : d'.find? l = none
  · exact h' l hmid hsome
  · exact h l hnone hmid

/-- What is put into a directory is added there. -/
theorem put {above : Location} {name : String} {k : Tree.Kind}
    (hdir : d.find? above = some .directory)
    (hk : d.find? (name :: above) = some .directory → k = .directory)
    (hnew : d.find? (name :: above) = none → new (name :: above)) :
    AddsOnly new d (d.place name above k) := by
  intro l hnone hsome
  rw [find?_place hdir hk] at hsome
  split at hsome
  · rename_i heq
    subst heq
    exact hnew hnone
  · exact absurd hnone hsome

/-- Writing adds nothing. -/
theorem writeAt (d : Disk) (loc : Location) (offset : Nat) (data : Octets) :
    AddsOnly new d (d.writeAt loc offset data) := by
  by_cases hdata : data = []
  · rw [hdata, writeAt_nil]
    exact refl new d
  by_cases hfile : ∃ content, d.find? loc = some (.file content)
  · obtain ⟨content, hfind⟩ := hfile
    intro l hnone hsome
    rw [find?_writeAt hfind offset hdata] at hsome
    split at hsome
    · rename_i heq
      rw [heq, hfind] at hnone
      cases hnone
    · exact absurd hnone hsome
  · rw [writeAt_of_ne_file (not_exists.1 hfile)]
    exact refl new d

end AddsOnly

/-- What lies above something is a directory. -/
theorem find?_of_append {inner : List String} (hne : inner ≠ [])
    (h : (d.find? (inner ++ loc)).isSome) : d.find? loc = some .directory := by
  induction inner with
  | nil => exact absurd rfl hne
  | cons name inner ih =>
    have habove : d.find? (inner ++ loc) = some .directory := find?_above h
    by_cases hinner : inner = []
    · rwa [hinner, List.nil_append] at habove
    · exact ih hinner (by rw [habove]; rfl)

theorem find?_of_front {front : List String} (h : (d.find? (names.reverse ++ loc)).isSome)
    (hfront : front <+: names) (hne : front ≠ names) :
    d.find? (front.reverse ++ loc) = some .directory := by
  obtain ⟨more, rfl⟩ := hfront
  rw [List.reverse_append, List.append_assoc] at h
  refine find?_of_append (fun hmore => hne ?_) h
  rw [List.reverse_eq_nil_iff.1 hmore, List.append_nil]

/-! ## On the way of a path -/

/-- Steps pass through a location: the first of them spell it. -/
def Passes (steps : List String) (l : Location) : Prop :=
  ∃ front, front <+: steps ∧ l = spelled [] front

theorem Passes.mono {steps more : List String} {l : Location} (h : Passes steps l)
    (hsteps : steps <+: more) : Passes more l := by
  obtain ⟨front, hfront, heq⟩ := h
  exact ⟨front, hfront.trans hsteps, heq⟩

/-- The steps of a path pass through the entry that it is about. -/
theorem passes_of_locateParent {above : Location} {name : String}
    (hparent : d.locateParent p = .ok (above, some name)) :
    Passes (d.stepsFromRoot p) (name :: above) := by
  obtain ⟨-, steps, hsteps, hwalk, -, hhere, hup, -⟩ := locateParent_eq_ok_iff.1 hparent
  refine ⟨steps ++ [name], hsteps ▸ List.prefix_rfl, ?_⟩
  rw [spelled_append, spelled_singleton hhere hup, walk_eq_spelled hwalk]

namespace AddsOnly

/-- What is put at the entry that a path is about is added on its way. -/
theorem place {above : Location} {name : String} {k : Tree.Kind}
    (hparent : d.locateParent p = .ok (above, some name))
    (hk : d.find? (name :: above) = some .directory → k = .directory) :
    AddsOnly (Passes (d.stepsFromRoot p)) d (d.place name above k) := by
  obtain ⟨-, -, -, -, hdir, -⟩ := locateParent_eq_ok_iff.1 hparent
  exact .put hdir hk fun _ => passes_of_locateParent hparent

theorem makeDirectory (h : d.makeDirectory p = .ok d') :
    AddsOnly (Passes (d.stepsFromRoot p)) d d' := by
  obtain ⟨above, name, hparent, -, rfl⟩ := makeDirectory_eq_ok_iff.1 h
  exact place hparent fun _ => rfl

/-- **Directories are made on the way of their path.** -/
theorem makeDirectories (d : Disk) (p : Path) :
    AddsOnly (Passes (d.stepsFromRoot p)) d (d.makeDirectories p).2 := by
  -- the steps are the same when directories have been made
  let R (d d' : Disk) : Prop :=
    Grows [] d d' ∧ AddsOnly (Passes (d.stepsFromRoot p)) d d'
  have hlineage : R d (d.makeDirectories p).2 := by
    refine makeLineage_induction (fun d => ⟨.refl [] d, .refl _ d⟩) ?_ ?_ d
    · rintro d₁ d₂ d₃ ⟨hgrows, hadds⟩ ⟨hgrows', hadds'⟩
      rw [hgrows.stepsFromRoot] at hadds'
      exact ⟨hgrows.trans hgrows', hadds.trans hadds'⟩
    · intro q hq _ d₁ d₂ hmade
      refine ⟨.makeDirectory hmade [], (makeDirectory hmade).mono fun l _ hl => ?_⟩
      exact hl.mono ((onWay_of_mem_lineage hq).stepsFromRoot d₁)
  exact hlineage.2

end AddsOnly

/-- Steps that never go up behind a location that can be walked to pass, where nothing is, through
    locations along their names. -/
theorem Passes.along (hnames : ".." ∉ names) (hstart : d.walk start = .ok loc) {l : Location}
    (h : Passes (start ++ names) l) (hnone : d.find? l = none) : Along loc (movesOf names) l := by
  obtain ⟨front, hfront, rfl⟩ := h
  rcases List.prefix_or_prefix_of_prefix hfront (List.prefix_append start names) with
    hbefore | ⟨behind, rfl⟩
  · -- the way to the start leads only to what is there
    obtain ⟨more, rfl⟩ := hbefore
    rw [walk_append] at hstart
    obtain ⟨mid, hmid, -⟩ := bind_eq_ok_iff.1 hstart
    obtain ⟨trail, -, -, hthere⟩ := walk_eq_ok_iff.1 hmid
    rw [walk_eq_spelled hmid, hnone] at hthere
    cases hthere
  · rw [List.prefix_append_right_inj] at hfront
    have hbehind := spelled_of_notMem (fun hup => hnames (hfront.subset hup)) loc
    rw [spelled_append, ← walk_eq_spelled hstart, hbehind] at hnone ⊢
    refine ⟨movesOf behind, fun hnil => ?_, movesOf_prefix hfront, rfl⟩
    obtain ⟨trail, -, -, hthere⟩ := walk_eq_ok_iff.1 hstart
    rw [hnil, List.reverse_nil, List.nil_append, hthere] at hnone
    cases hnone

/-- So additions on the way are additions along the names. -/
theorem AddsOnly.along {steps : List String} (hnames : ".." ∉ names)
    (hstart : d.walk start = .ok loc) (hsteps : steps <+: start ++ names)
    (h : AddsOnly (Passes steps) d d') : AddsOnly (Along loc (movesOf names)) d d' :=
  h.mono fun _ hnone hl => (hl.mono hsteps).along hnames hstart hnone

end Disk

/-! ## Saving -/

namespace DiskStore

open Disk Sequence

variable {s s' : DiskStore} {path : Path} {content : Octets} {loc : Location}

theorem addsOnly_makeParent (hpath : path.IsPlain)
    (hbase : s.disk.walk (s.disk.stepsFromRoot s.base) = .ok loc) :
    AddsOnly (Along loc path.names) s.disk (s.makeParent (s.full path)).2.disk := by
  unfold makeParent
  split
  · exact .refl _ s.disk
  · rename_i parent hparent
    split
    · exact .refl _ s.disk
    · have hsteps : s.disk.stepsFromRoot parent <+:
          s.disk.stepsFromRoot s.base ++ path.names := by
        rw [← stepsFromRoot_join s.disk hpath]
        exact (onWay_of_parent? hparent).stepsFromRoot s.disk
      have hadds := (AddsOnly.makeDirectories s.disk parent).along (up_notMem_of_isPlain hpath) hbase
        hsteps
      rw [movesOf_of_isPlain hpath] at hadds
      split <;> rename_i hmade <;> rw [hmade] at hadds <;> exact hadds

/-- A file is opened to be written at its names below the base directory, and nothing is added
    but along them. -/
theorem openWrite_adds (hpath : path.IsPlain)
    (hbase : s.disk.walk (s.disk.stepsFromRoot s.base) = .ok loc) {w : Writer}
    (h : s.openWrite path = (.ok w, s')) : AddsOnly (Along loc path.names) s.disk s'.disk := by
  unfold openWrite at h
  dsimp only at h
  split at h
  · cases h
  · rename_i mid hparent
    have hadds := addsOnly_makeParent hpath hbase
    obtain ⟨disk, hmid, hgrows⟩ := makeParent_snd s (s.full path) loc
    rw [hparent] at hadds hmid
    subst hmid
    split at h
    · cases h
    · rename_i location disk' hcreate
      cases h
      obtain ⟨name, above, hlocate, -, hfree, -, rfl⟩ := createFile_eq_ok_iff.1 hcreate
      have hplace := (AddsOnly.place (k := .file []) hlocate fun e => absurd e hfree).along
        (up_notMem_of_isPlain hpath) (hgrows.walk hbase)
        (by rw [hgrows.stepsFromRoot, ← stepsFromRoot_join s.disk hpath]; exact List.prefix_rfl)
      rw [movesOf_of_isPlain hpath] at hplace
      exact hadds.trans hplace

theorem save_adds (hpath : path.IsPlain)
    (hbase : s.disk.walk (s.disk.stepsFromRoot s.base) = .ok loc)
    (h : Store.save s path content = (.ok (), s')) :
    AddsOnly (Along loc path.names) s.disk s'.disk := by
  unfold Store.save at h
  split at h
  · cases h
  · rename_i w mid hopen
    have hadds := openWrite_adds hpath hbase hopen
    obtain ⟨disk, rfl, -, hlocate, hposition, hpending⟩ := openWrite_eq_ok hopen
    cases (finish_append hposition hpending content).symm.trans (Prod.mk.inj h).2
    exact hadds.trans (.writeAt _ _ 0 content)

/-- A saved file lies at its names below the base directory. -/
theorem locate_of_save (hpath : path.IsPlain)
    (hbase : s.disk.walk (s.disk.stepsFromRoot s.base) = .ok loc)
    (h : Store.save s path content = (.ok (), s')) :
    (∃ disk, s' = { s with disk }) ∧ Grows (path.names.reverse ++ loc) s.disk s'.disk ∧
      s'.disk.locate (s.full path) = .ok (path.names.reverse ++ loc, .file content) := by
  obtain ⟨location, disk, rfl, hgrows, hlocate⟩ := save_eq_ok h
  obtain ⟨loc', hloc', rfl⟩ := walk_join hpath (locate_eq_ok_iff.1 hlocate).2.1
  rw [hgrows.stepsFromRoot] at hloc'
  cases (hgrows.walk hbase).symm.trans hloc'
  exact ⟨⟨disk, rfl⟩, hgrows, hlocate⟩

/-- **What a save leaves below the base directory**: the file, directories along the names it
    lies under, and everywhere else what was there. -/
theorem find?_of_save (hpath : path.IsPlain)
    (hbase : s.disk.walk (s.disk.stepsFromRoot s.base) = .ok loc)
    (h : Store.save s path content = (.ok (), s')) (names : List String) :
    s'.disk.find? (names.reverse ++ loc) =
      if names = path.names then some (.file content)
      else if names <+: path.names then some .directory
      else s.disk.find? (names.reverse ++ loc) := by
  obtain ⟨-, hgrows, hlocate⟩ := locate_of_save hpath hbase h
  have hfile := (locate_eq_ok_iff.1 hlocate).2.2.1
  split
  · rename_i heq
    rw [heq, hfile]
  split
  · rename_i hproper hfront
    exact find?_of_front (by rw [hfile]; rfl) hfront hproper
  · rename_i hproper hside
    cases hold : s.disk.find? (names.reverse ++ loc) with
    | some k =>
      cases k with
      | directory => exact hgrows.directory _ hold
      | file kept =>
        obtain ⟨kept', hkept', hsame⟩ := hgrows.file _ kept hold
        rw [hkept', hsame fun e => hproper (List.reverse_injective (List.append_cancel_right e))]
    | none =>
      by_contra hnew
      obtain ⟨front, -, hfront, heq⟩ := save_adds hpath hbase h _ hold hnew
      rw [List.append_cancel_right_eq, List.reverse_inj] at heq
      exact hside (heq ▸ hfront)

/-- No file is saved below another one. -/
theorem find?_ne_file_of_save (hpath : path.IsPlain)
    (hbase : s.disk.walk (s.disk.stepsFromRoot s.base) = .ok loc)
    (h : Store.save s path content = (.ok (), s')) {names : List String}
    (hfront : names <+: path.names) (hproper : names ≠ path.names) (kept : Octets) :
    s.disk.find? (names.reverse ++ loc) ≠ some (.file kept) := by
  intro hold
  have hdir := find?_of_save hpath hbase h names
  rw [if_neg hproper, if_pos hfront] at hdir
  -- a file stays one while the disk grows
  obtain ⟨-, hgrows, -⟩ := locate_of_save hpath hbase h
  obtain ⟨kept', hkept', -⟩ := hgrows.file _ kept hold
  cases hdir.symm.trans hkept'

end DiskStore

end Apportion
