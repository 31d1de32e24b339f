/-
  Splits saved into a directory of a disk, one after the other.

  * `DiskStore.below s p`: the same files, seen from the directory `p` of the store.
  * `save_below`, `load_below`: what is asked for a path in the directory, is asked for the same path
    from there.
  * `file_iff_of_saveEach`: only the files that the paths lead to change.
  * `mem_names_of_saveEach`: a directory gets the names saved in it, and keeps those that it had;
    `find?_ne_directory_of_saveEach`: none of the former is the name of a directory.
-/
import Apportion.Proofs.Disk.Reaching
import Apportion.Proofs.Disk.Additions
import Apportion.Proofs.Plan.Delivery

namespace Apportion

namespace DiskStore

open Disk

variable {s s' : DiskStore} {p q path : Path} {content : Octets}

/-! ## Stores below a directory -/

/-- The store seen from another base directory. -/
def rebased (s : DiskStore) (base : Path) : DiskStore := { s with base }

/-- The store seen from one of its directories. -/
def below (s : DiskStore) (p : Path) : DiskStore := s.rebased (s.full p)

theorem full_below (s : DiskStore) (p : Path) (hq : q.isAbsolute = false) :
    (s.below p).full q = s.full (p.join q) :=
  (Path.join_join s.base hq).symm

section
variable (s : DiskStore) (base : Path)

@[simp] theorem disk_rebased : (s.rebased base).disk = s.disk := rfl

theorem makeParent_rebased (full : Path) : (s.rebased base).makeParent full =
    ((s.makeParent full).1, (s.makeParent full).2.rebased base) := by
  unfold makeParent
  cases full.parent? with
  | none => rfl
  | some parent =>
    by_cases hthere : s.disk.contains parent = true
    · simp only [disk_rebased, hthere, if_true]
    · rcases hmade : s.disk.makeDirectories parent with ⟨_ | _, disk⟩ <;>
        simp only [disk_rebased, hthere, hmade, Bool.false_eq_true, if_false] <;> rfl

theorem flush_rebased (w : Writer) : (s.rebased base).flush w =
    ((s.flush w).1, (s.flush w).2.rebased base) := rfl

theorem append_rebased (w : Writer) (data : Octets) : (s.rebased base).append w data =
    ((s.append w data).1, (s.append w data).2.rebased base) := by
  unfold append
  simp only [flush_rebased]
  split <;> split <;> rfl

end

/-- Files are opened to be written as they are from elsewhere under the same full path. -/
theorem openWrite_rebased {base : Path} (h : base.join q = s.full path) :
    (s.rebased base).openWrite q = ((s.openWrite path).1, (s.openWrite path).2.rebased base) := by
  have hfull : (s.rebased base).full q = s.full path := h
  unfold openWrite
  simp only [hfull, makeParent_rebased]
  rcases s.makeParent (s.full path) with ⟨_ | _, mid⟩
  · rfl
  · simp only [disk_rebased]
    split <;> rfl

theorem save_rebased {base : Path} (h : base.join q = s.full path) (content : Octets) :
    Store.save (s.rebased base) q content =
      ((Store.save s path content).1, (Store.save s path content).2.rebased base) := by
  have hopen : Store.openWrite (s.rebased base) q =
      ((Store.openWrite s path).1, (Store.openWrite s path).2.rebased base) := openWrite_rebased h
  unfold Store.save
  rw [hopen]
  rcases Store.openWrite s path with ⟨_ | w, mid⟩
  · rfl
  · have happend : Store.append (mid.rebased base) w content =
        ((Store.append mid w content).1, (Store.append mid w content).2.rebased base) :=
      append_rebased mid base w content
    dsimp only
    rw [happend]
    rfl

/-- Saving below a directory is saving in it. -/
theorem save_below (hq : q.isAbsolute = false) (content : Octets) :
    Store.save (s.below p) q content = ((Store.save s (p.join q) content).1,
      (Store.save s (p.join q) content).2.rebased (s.full p)) :=
  save_rebased (full_below s p hq) content

theorem read_below (hq : q.isAbsolute = false) :
    Store.read (s.below p) q = Store.read s (p.join q) := by
  have hopen : (s.below p).openRead q = s.openRead (p.join q) := by
    unfold openRead
    rw [full_below s p hq]
    rfl
  change (s.below p).openRead q >>= _ = s.openRead (p.join q) >>= _
  rw [hopen]
  rfl

theorem load_below (hq : q.isAbsolute = false) :
    Split.load (s.below p) q = Split.load s (p.join q) := by
  unfold Split.load
  rw [read_below hq]

/-! ## Saves one after the other -/

/-- What every save keeps, saves one after the other keep. -/
theorem saveEach_induction {R : Disk → Disk → Prop} (refl : ∀ d, R d d)
    (trans : ∀ {d d' d''}, R d d' → R d' d'' → R d d'')
    (grows : ∀ {loc d d'}, Grows loc d d' → R d d') {work : List (Split × Path)}
    (h : Split.saveEach s work = (.ok (), s')) : R s.disk s'.disk := by
  induction work generalizing s with
  | nil =>
    cases h
    exact refl _
  | cons w work ih =>
    obtain ⟨mid, hmid, h⟩ := Split.saveEach_cons_eq_ok_iff.1 h
    obtain ⟨o, -, hsave⟩ := Split.save_eq_ok_iff.1 hmid
    obtain ⟨loc, disk, rfl, hgrows, -⟩ := save_eq_ok hsave
    exact trans (grows hgrows) (ih h)

/-- A path that leads to a file leads there after other saves. -/
theorem locate_file_of_saveEach {work : List (Split × Path)} {loc : Location}
    (h : Split.saveEach s work = (.ok (), s')) (hfile : s.disk.locate path = .ok (loc, .file content)) :
    ∃ content', s'.disk.locate path = .ok (loc, .file content') := by
  let R (d d' : Disk) : Prop := ∀ content, d.locate path = .ok (loc, .file content) →
    ∃ content', d'.locate path = .ok (loc, .file content')
  have hkept : R s.disk s'.disk := by
    refine saveEach_induction (fun d content hd => ⟨content, hd⟩) ?_ ?_ h
    · intro d d' d'' hd hd' content hfound
      obtain ⟨content', hfound'⟩ := hd content hfound
      exact hd' content' hfound'
    · intro loc' d d' hgrows content hfound
      obtain ⟨content', hfound', -⟩ := hgrows.locate hfound
      exact ⟨content', hfound'⟩
  exact hkept content hfile

theorem locate_directory_of_saveEach {work : List (Split × Path)} {loc : Location}
    (h : Split.saveEach s work = (.ok (), s')) (hdir : s.disk.locate path = .ok (loc, .directory)) :
    s'.disk.locate path = .ok (loc, .directory) := by
  let R (d d' : Disk) : Prop :=
    d.locate path = .ok (loc, .directory) → d'.locate path = .ok (loc, .directory)
  have hkept : R s.disk s'.disk :=
    saveEach_induction (fun _ hd => hd) (fun hd hd' hfound => hd' (hd hfound))
      (fun hgrows hfound => hgrows.locate_directory hfound) h
  exact hkept hdir

/-- **Only the files that the paths lead to change.** -/
theorem file_iff_of_saveEach {work : List (Split × Path)} (h : Split.saveEach s work = (.ok (), s'))
    {l : Location} (hother : ∀ w ∈ work, ∀ k, s'.disk.locate (s.full w.2) ≠ .ok (l, k))
    (content : Octets) :
    s'.disk.find? l = some (.file content) ↔ s.disk.find? l = some (.file content) := by
  induction work generalizing s with
  | nil =>
    cases h
    rfl
  | cons w work ih =>
    obtain ⟨hw, hother⟩ := List.forall_mem_cons.1 hother
    obtain ⟨mid, hmid, h⟩ := Split.saveEach_cons_eq_ok_iff.1 h
    obtain ⟨o, -, hsave⟩ := Split.save_eq_ok_iff.1 hmid
    obtain ⟨loc, disk, rfl, hgrows, hlocate⟩ := save_eq_ok hsave
    obtain ⟨content', hlast⟩ := locate_file_of_saveEach h hlocate
    have hne : l ≠ loc := by
      rintro rfl
      exact hw _ hlast
    rw [ih h hother, hgrows.file_iff hne]

/-- **A directory gets the names that are saved in it**, and keeps those that it had. -/
theorem mem_names_of_saveEach {work : List (Split × Path)} {loc : Location}
    (hplain : ∀ w ∈ work, w.2.IsPlain ∧ w.2.names = [w.2.text])
    (hbase : s.disk.walk (s.disk.stepsFromRoot s.base) = .ok loc)
    (h : Split.saveEach s work = (.ok (), s')) (name : String) :
    name ∈ s'.disk.names loc ↔
      name ∈ s.disk.names loc ∨ name ∈ work.map fun w => w.2.text := by
  induction work generalizing s with
  | nil =>
    cases h
    simp
  | cons w work ih =>
    obtain ⟨⟨hpath, hnames⟩, hplain⟩ := List.forall_mem_cons.1 hplain
    obtain ⟨mid, hmid, h⟩ := Split.saveEach_cons_eq_ok_iff.1 h
    obtain ⟨o, -, hsave⟩ := Split.save_eq_ok_iff.1 hmid
    obtain ⟨⟨disk, rfl⟩, hgrows, -⟩ := locate_of_save hpath hbase hsave
    have hbase' : disk.walk (disk.stepsFromRoot s.base) = .ok loc := by
      rw [hgrows.stepsFromRoot]
      exact hgrows.walk hbase
    have hfind := find?_of_save hpath hbase hsave [name]
    rw [ih hplain hbase' h, mem_names_iff, mem_names_iff, List.map_cons, List.mem_cons, ← or_assoc]
    refine or_congr_left ?_
    rw [List.reverse_singleton, List.singleton_append, hnames] at hfind
    by_cases hname : name = w.2.text
    · have heq : [name] = [w.2.text] := by rw [hname]
      rw [if_pos heq] at hfind
      rw [hfind]
      exact iff_of_true rfl (Or.inr hname)
    · have hne : [name] ≠ [w.2.text] := fun e => hname (List.singleton_inj.1 e)
      have hfront : ¬ [name] <+: [w.2.text] := fun e => hne (e.eq_of_length rfl)
      rw [if_neg hne, if_neg hfront] at hfind
      rw [hfind, or_iff_left hname]

/-- Nothing is saved under the name of a directory. -/
theorem find?_ne_directory_of_saveEach {work : List (Split × Path)} {loc : Location}
    (hplain : ∀ w ∈ work, w.2.IsPlain ∧ w.2.names = [w.2.text])
    (hbase : s.disk.walk (s.disk.stepsFromRoot s.base) = .ok loc)
    (h : Split.saveEach s work = (.ok (), s')) :
    ∀ w ∈ work, s.disk.find? (w.2.text :: loc) ≠ some .directory := by
  induction work generalizing s with
  | nil => exact fun w hw => absurd hw List.not_mem_nil
  | cons w work ih =>
    obtain ⟨⟨hpath, hnames⟩, hplain⟩ := List.forall_mem_cons.1 hplain
    obtain ⟨mid, hmid, h⟩ := Split.saveEach_cons_eq_ok_iff.1 h
    obtain ⟨o, -, hsave⟩ := Split.save_eq_ok_iff.1 hmid
    obtain ⟨⟨disk, rfl⟩, hgrows, hlocate⟩ := locate_of_save hpath hbase hsave
    have hbase' : disk.walk (disk.stepsFromRoot s.base) = .ok loc := by
      rw [hgrows.stepsFromRoot]
      exact hgrows.walk hbase
    -- a directory stays one while the disk grows
    refine List.forall_mem_cons.2 ⟨fun hdir => ?_, fun w hw hdir => ?_⟩
    · have hfile := (locate_eq_ok_iff.1 hlocate).2.2.1
      rw [hnames, List.reverse_singleton, List.singleton_append] at hfile
      cases hfile.symm.trans (hgrows.directory _ hdir)
    · exact ih hplain hbase' h w hw (hgrows.directory _ hdir)

end DiskStore

end Apportion
