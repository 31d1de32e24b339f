/-
  What saving a file leaves on a disk.

  * `stepsFromRoot_join`: the way to a plain path goes over the base directory and its names.
  * `openWrite_eq_ok`, `finish_append`: a file is created, and gets all the bytes of one write.
  * `save_eq_ok`: what saving does, told in one place.
  * `DiskStore` is faithful: different plain paths lead to different files.
-/
import Apportion.Disk.Store
import Apportion.Proofs.Disk.Growth
import Apportion.Proofs.Store.Faithful

namespace Apportion

namespace Disk

variable {p q : Path}

theorem stepsOf_of_isPlain (h : p.IsPlain) : stepsOf p = p.names := by
  rw [stepsOf, List.filter_eq_self.2, Path.names]
  intro piece hpiece
  exact decide_eq_true (h.piece_ne hpiece).1

theorem stepsOf_join (hq : q.isAbsolute = false) : stepsOf (p.join q) = stepsOf p ++ stepsOf q := by
  obtain ⟨text⟩ := p
  simp only [Path.join, hq, Bool.false_eq_true, if_false]
  split
  · rename_i h
    rcases (Bool.or_eq_true _ _).mp h with h | h
    · have htext : text = "" := by simpa using h
      subst htext
      simp [stepsOf]
    · -- the last name of a path that ends in a slash is empty
      obtain ⟨cs, hcs⟩ := List.getLast?_eq_some_iff.1 (of_decide_eq_true h)
      simp only [stepsOf, String.toList_append, hcs, List.append_assoc, List.singleton_append,
        List.splitOn_append_cons_self, List.filter_append, List.map_append]
      simp
  · have hslash : "/".toList = ['/'] := rfl
    simp only [stepsOf, String.toList_append, hslash, List.append_assoc, List.singleton_append,
      List.splitOn_append_cons_self, List.filter_append, List.map_append]

theorem stepsFromRoot_join_stepsOf (d : Disk) (hq : q.isAbsolute = false) :
    d.stepsFromRoot (p.join q) = d.stepsFromRoot p ++ stepsOf q := by
  simp only [stepsFromRoot, Path.isAbsolute_join hq, stepsOf_join hq]
  split
  · rfl
  · rw [List.append_assoc]

theorem stepsFromRoot_join (d : Disk) (hq : q.IsPlain) :
    d.stepsFromRoot (p.join q) = d.stepsFromRoot p ++ q.names := by
  rw [stepsFromRoot_join_stepsOf d hq.not_isAbsolute, stepsOf_of_isPlain hq]

theorem up_notMem_of_isPlain (h : p.IsPlain) : ".." ∉ p.names := fun hup => (h _ hup).2.2 rfl

/-- Every step of a plain path leads on. -/
theorem movesOf_of_isPlain (h : p.IsPlain) : movesOf p.names = p.names :=
  List.filter_eq_self.2 fun name hname => decide_eq_true (h name hname).2.1

/-- A plain path below another one leads to its names below where that one leads. -/
theorem walk_join {d : Disk} {loc : Location} (hq : q.IsPlain)
    (h : d.walk (d.stepsFromRoot (p.join q)) = .ok loc) :
    ∃ above, d.walk (d.stepsFromRoot p) = .ok above ∧ loc = q.names.reverse ++ above := by
  rw [stepsFromRoot_join d hq, walk_append] at h
  obtain ⟨above, habove, h⟩ := Sequence.bind_eq_ok_iff.1 h
  refine ⟨above, habove, ?_⟩
  rw [foldlM_stepFrom_eq_ok (up_notMem_of_isPlain hq) h, movesOf_of_isPlain hq]

end Disk

namespace DiskStore

open Disk

variable {s s' : DiskStore} {path other : Path} {content : Octets}

theorem read_eq_ok_iff :
    Store.read s path = .ok content ↔
      ∃ loc, s.disk.locate (s.full path) = .ok (loc, .file content) := by
  change s.openRead path >>= (fun reader => .ok (s.readRest reader)) = _ ↔ _
  unfold openRead
  cases hlocate : s.disk.locate (s.full path) with
  | error error =>
    constructor
    · intro h
      cases h
    · rintro ⟨loc, h⟩
      cases h
  | ok found =>
    obtain ⟨loc, k⟩ := found
    cases k with
    | directory =>
      constructor
      · intro h
        cases h
      · rintro ⟨loc, h⟩
        cases h
    | file kept =>
      have hcontent : s.disk.contentAt loc = kept := by
        rw [contentAt, (locate_eq_ok_iff.1 hlocate).2.2.1]
      constructor
      · intro h
        cases h
        exact ⟨loc, by simp only [readRest, hcontent, List.nil_append, List.drop_zero]⟩
      · rintro ⟨loc', h⟩
        cases h
        change Except.ok _ = _
        rw [readRest, hcontent, List.nil_append, List.drop_zero]

/-! ## Saving -/

theorem makeParent_snd (s : DiskStore) (full : Path) (loc : Location) :
    ∃ disk, (s.makeParent full).2 = { s with disk } ∧ Grows loc s.disk disk := by
  unfold makeParent
  split
  · exact ⟨s.disk, rfl, .refl loc s.disk⟩
  · rename_i parent _
    split
    · exact ⟨s.disk, rfl, .refl loc s.disk⟩
    · have hgrows := Grows.makeDirectories s.disk parent loc
      split <;> rename_i hmade <;> rw [hmade] at hgrows <;> exact ⟨_, rfl, hgrows⟩

/-- A file that is opened to be written is empty, and nothing else has changed. -/
theorem openWrite_eq_ok {w : Writer} (h : s.openWrite path = (.ok w, s')) :
    ∃ disk, s' = { s with disk } ∧ Grows w.location s.disk disk ∧
      disk.locate (s.full path) = .ok (w.location, .file []) ∧ w.position = 0 ∧
      w.pending = [] := by
  unfold openWrite at h
  dsimp only at h
  split at h
  · cases h
  · rename_i mid hparent
    split at h
    · cases h
    · rename_i loc disk hcreate
      cases h
      obtain ⟨disk', hmid, hgrows⟩ := makeParent_snd s (s.full path) loc
      rw [hparent] at hmid
      subst hmid
      exact ⟨disk, rfl, hgrows.trans (.createFile hcreate), locate_of_createFile hcreate, rfl, rfl⟩

/-- All bytes of the only write through a handle are in the file once it is completed. -/
theorem finish_append {w : Writer} (hposition : w.position = 0) (hpending : w.pending = [])
    (data : Octets) :
    Store.finish (s.append w data).2 (s.append w data).1 =
      { s with disk := s.disk.writeAt w.location 0 data } := by
  have hflush : s.flush w = (w, s) := by
    obtain ⟨loc, capacity, position, pending⟩ := w
    cases hpending
    simp only [flush, pass, writeAt_nil, List.length_nil, Nat.add_zero]
  change (DiskStore.flush _ _).2 = _
  unfold append
  simp only [hflush, ite_self]
  split
  · simp only [flush, pass, hpending, hposition, List.nil_append]
  · simp only [flush, pass, hpending, hposition, writeAt_nil]

/-- **What saving does**: the path leads to a file with the bytes saved, and nothing else has
    changed. -/
theorem save_eq_ok (h : Store.save s path content = (.ok (), s')) :
    ∃ loc disk, s' = { s with disk } ∧ Grows loc s.disk disk ∧
      disk.locate (s.full path) = .ok (loc, .file content) := by
  unfold Store.save at h
  split at h
  · cases h
  · rename_i w mid hopen
    obtain ⟨disk, rfl, hgrows, hlocate, hposition, hpending⟩ := openWrite_eq_ok hopen
    cases (finish_append hposition hpending content).symm.trans (Prod.mk.inj h).2
    obtain ⟨hspelling, hwalk, hfind, hslash⟩ := locate_eq_ok_iff.1 hlocate
    have hwrite := Grows.writeAt hfind 0 content
    refine ⟨w.location, disk.writeAt w.location 0 content, rfl, hgrows.trans hwrite, ?_⟩
    refine locate_eq_ok_iff.2 ⟨hspelling, ?_, ?_, fun e => by cases hslash e⟩
    · rw [hwrite.stepsFromRoot]
      exact hwrite.walk hwalk
    · by_cases hcontent : content = []
      · rw [hcontent, writeAt_nil, hfind]
      · rw [find?_writeAt hfind 0 hcontent, if_pos rfl, overwrite_nil]

instance : Store.Faithful DiskStore where
  read_of_save {s s' path content} _ h := by
    obtain ⟨loc, disk, rfl, -, hlocate⟩ := save_eq_ok h
    exact read_eq_ok_iff.2 ⟨loc, hlocate⟩
  read_of_save_of_ne {s s' path other content kept} hpath hother hne h hkept := by
    obtain ⟨loc, disk, rfl, hgrows, hlocate⟩ := save_eq_ok h
    obtain ⟨loc', hlocate'⟩ := read_eq_ok_iff.1 hkept
    obtain ⟨kept', hkept', hsame⟩ := hgrows.locate hlocate'
    refine read_eq_ok_iff.2 ⟨loc', ?_⟩
    -- both ways go over the base directory, and then apart
    obtain ⟨above, habove, hloc⟩ := walk_join hpath (locate_eq_ok_iff.1 hlocate).2.1
    obtain ⟨above', habove', hloc'⟩ := walk_join hother (locate_eq_ok_iff.1 hkept').2.1
    have hne' : loc' ≠ loc := by
      intro e
      cases habove.symm.trans habove'
      rw [hloc, hloc'] at e
      exact hne (Path.eq_of_names (List.reverse_injective (List.append_cancel_right e)))
    rw [← hsame hne']
    exact hkept'

end DiskStore

end Apportion
