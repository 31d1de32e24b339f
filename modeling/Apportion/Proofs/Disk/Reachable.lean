/-
  Disks as requests leave them.

  * `IsName`: a name that a request can give to an entry; `isName_of_locateParent`.
  * `Disk.Reachable`: what requests make of a disk with nothing on it.
  * `Reachable.named`: everything on such a disk has a name like that.
  * `Named.contains_entry`: so below a directory each entry is found under its name, unless the path
    gets too long.
  * `DiskStore.reachable_serve`, `reachable_run`: what is asked of the handles of a store is such
    requests.
-/
import Apportion.Disk.Contents
import Apportion.Proofs.Disk.Directories
import Apportion.Proofs.Disk.Entries
import Apportion.Proofs.Disk.Handles

namespace Apportion

namespace Disk

open Sequence

variable {d d' : Disk} {p : Path} {loc above : Location} {name : String}

/-! ## Names -/

/-- A name that a request can give to an entry: that of an entry, not too long, and without a zero. -/
structure IsName (name : String) : Prop where
  entry : IsEntryName name
  short : name.utf8ByteSize ≤ maxName
  nonzero : Char.ofNat 0 ∉ name.toList

theorem isName_of_locateParent (h : d.locateParent p = .ok (above, some name)) : IsName name := by
  obtain ⟨hspelling, -, -, -, -, -, -, hshort⟩ := locateParent_eq_ok_iff.1 h
  refine ⟨isEntryName_of_locateParent h, hshort, fun hzero => ?_⟩
  -- what is in a step is in the path
  obtain ⟨piece, hpiece, rfl⟩ := List.mem_map.1 (mem_stepsOf_of_locateParent h)
  rw [String.toList_ofList] at hzero
  have hpath := Text.subset_of_mem_splitOn (List.mem_filter.1 hpiece).1 hzero
  exact (checkSpelling_eq_ok_iff.1 hspelling).1 hpath

/-- All that is on a disk has such a name. -/
def Named (d : Disk) : Prop := ∀ name above, (d.find? (name :: above)).isSome → IsName name

/-- What is added with such names leaves no other ones. -/
theorem Named.of_addsOnly (h : d.Named)
    (hadds : AddsOnly (fun l => ∀ name ∈ l.head?, IsName name) d d') : d'.Named := by
  intro name above hsome
  by_cases hold : d.find? (name :: above) = none
  · exact hadds _ hold (Option.isSome_iff_ne_none.1 hsome) name rfl
  · exact h name above (Option.isSome_iff_ne_none.2 hold)

/-- What is put at the entry that a path is about has such a name. -/
theorem Named.place {k : Tree.Kind} (h : d.Named)
    (hparent : d.locateParent p = .ok (above, some name))
    (hk : d.find? (name :: above) = some .directory → k = .directory) :
    (d.place name above k).Named := by
  obtain ⟨-, -, -, -, hdir, -⟩ := locateParent_eq_ok_iff.1 hparent
  refine h.of_addsOnly (.put hdir hk fun _ => ?_)
  rintro name ⟨⟩
  exact isName_of_locateParent hparent

/-- **Below a directory every entry is found under its name**, as long as the path is not too
    long. -/
theorem Named.contains_entry (h : d.Named) (hdir : d.locate p = .ok (loc, .directory))
    (hentry : (d.find? (name :: loc)).isSome)
    (hreach : (p.join ⟨name⟩).text.utf8ByteSize ≤ maxPath) : d.contains (p.join ⟨name⟩) = true := by
  obtain ⟨hspelling, -, -, -⟩ := locate_eq_ok_iff.1 hdir
  obtain ⟨hzero, -, -⟩ := checkSpelling_eq_ok_iff.1 hspelling
  have hname := h name loc hentry
  have hplain := hname.entry.isPlain
  have htext : (p.join ⟨name⟩).text.toList = p.lead.toList ++ name.toList := by
    rw [Path.join_eq p hplain.not_isAbsolute, String.toList_append]
  have hspelled : checkSpelling (p.join ⟨name⟩) = .ok () := by
    refine checkSpelling_eq_ok_iff.2 ⟨?_, ?_, hreach⟩
    · rw [htext, List.mem_append, not_or]
      exact ⟨fun hlead => hzero (p.mem_of_mem_lead hlead (by decide)), hname.nonzero⟩
    · rw [htext]
      exact List.append_ne_nil_of_right_ne_nil _ hplain.toList_ne_nil
  obtain ⟨k, hk⟩ := Option.isSome_iff_exists.1 hentry
  have hfound := (locate_entry_iff hdir hname.entry).2 ⟨rfl, hk, hspelled, hname.short⟩
  exact contains_iff.2 ⟨_, hfound⟩

/-! ## Requests -/

/-- What requests make of a disk with nothing on it: directories and empty files are made in the
    directories that are there, files are written, and the working directory is changed. -/
inductive Reachable : Disk → Prop
  | empty : Reachable empty
  | makeDirectory {d d' : Disk} {p : Path} : Reachable d → d.makeDirectory p = .ok d' → Reachable d'
  | createFile {d d' : Disk} {p : Path} {loc : Location} : Reachable d →
      d.createFile p = .ok (loc, d') → Reachable d'
  | writeAt {d : Disk} (loc : Location) (offset : Nat) (data : Octets) : Reachable d →
      Reachable (d.writeAt loc offset data)
  | enter {d d' : Disk} {p : Path} : Reachable d → d.enter p = .ok d' → Reachable d'

namespace Reachable

theorem makeDirectories (h : d.Reachable) (p : Path) : (d.makeDirectories p).2.Reachable :=
  makeLineage_induction (R := fun d d' => d.Reachable → d'.Reachable) (fun _ h => h)
    (fun h h' hd => h' (h hd)) (fun _ _ _ _ _ hmade hd => hd.makeDirectory hmade) d h

/-- **Every name on the disk is one that a request can give.** -/
theorem named (h : d.Reachable) : d.Named := by
  induction h with
  | empty =>
    intro name above hsome
    have hne : (name :: above).reverse ≠ [] := List.reverse_ne_nil_iff.2 (List.cons_ne_nil _ _)
    obtain ⟨first, steps, hsteps⟩ := List.exists_cons_of_ne_nil hne
    have hnone : Disk.empty.root.at? (first :: steps) = none :=
      Tree.at?_ofKind_cons .directory first steps
    rw [find?, hsteps, hnone] at hsome
    cases hsome
  | makeDirectory _ hmade ih =>
    obtain ⟨above, name, hparent, -, rfl⟩ := makeDirectory_eq_ok_iff.1 hmade
    exact ih.place hparent fun _ => rfl
  | createFile _ hcreate ih =>
    obtain ⟨name, above, hparent, -, hfree, -, rfl⟩ := createFile_eq_ok_iff.1 hcreate
    exact ih.place hparent fun hdir => absurd hdir hfree
  | writeAt loc offset data _ ih => exact ih.of_addsOnly (.writeAt _ loc offset data)
  | enter _ henter ih =>
    obtain ⟨found, -, h⟩ := bind_eq_ok_iff.1 henter
    dsimp only at h
    split at h
    · cases h
      exact ih
    · cases h

end Reachable

end Disk

/-! ## Requests of a store -/

namespace DiskStore

open Disk

variable {s : DiskStore} {disk : Disk}

theorem reachable_create (settings : StorageSettings) (h : disk.Reachable) :
    (create settings disk).2.Reachable := by
  have hmade := h.makeDirectories settings.basePath
  unfold create
  split
  · exact h
  · split <;> rename_i heq <;> rw [heq] at hmade <;> exact hmade

theorem reachable_makeDirectories (h : s.disk.Reachable) (path : Path) :
    (s.makeDirectories path).2.disk.Reachable := by
  have hmade := h.makeDirectories (s.full path)
  unfold DiskStore.makeDirectories
  split <;> rename_i heq <;> rw [heq] at hmade <;> exact hmade

theorem reachable_makeParent (h : s.disk.Reachable) (full : Path) :
    (s.makeParent full).2.disk.Reachable := by
  unfold makeParent
  split
  · exact h
  · rename_i parent _
    split
    · exact h
    · have hmade := h.makeDirectories parent
      split <;> rename_i heq <;> rw [heq] at hmade <;> exact hmade

theorem reachable_openWrite (h : s.disk.Reachable) (path : Path) :
    (s.openWrite path).2.disk.Reachable := by
  have hparent := reachable_makeParent h (s.full path)
  unfold openWrite
  dsimp only
  split
  · rename_i heq
    rwa [heq] at hparent
  · rename_i heq
    rw [heq] at hparent
    split
    · exact hparent
    · rename_i hcreate
      exact hparent.createFile hcreate

theorem reachable_flush (h : s.disk.Reachable) (w : Writer) : (s.flush w).2.disk.Reachable :=
  h.writeAt ..

theorem reachable_append (h : s.disk.Reachable) (w : Writer) (data : Octets) :
    (s.append w data).2.disk.Reachable := by
  unfold append
  dsimp only
  split
  · split
    · exact h.writeAt ..
    · exact (h.writeAt ..).writeAt ..
  · split
    · exact h
    · exact h.writeAt ..

variable {session : Session DiskStore}

theorem reachable_withWriter {name : String}
    {act : DiskStore → Writer → Option Writer × DiskStore} (h : session.store.disk.Reachable)
    (hact : ∀ w, (act session.store w).2.disk.Reachable) :
    (session.withWriter name act).2.store.disk.Reachable := by
  unfold Session.withWriter
  cases session.writers.get? name with
  | none => exact h
  | some w =>
    have hw := hact w
    dsimp only
    split <;> rename_i heq <;> rw [heq] at hw <;> exact hw

theorem reachable_serve (h : session.store.disk.Reachable) (r : Request) :
    (serve session r).store.disk.Reachable := by
  cases r with
  | openWrite name path =>
    have hopen := reachable_openWrite h path
    change (session.openWrite name path).2.store.disk.Reachable
    unfold Session.openWrite
    have hsame : Store.openWrite session.store path = session.store.openWrite path := rfl
    rw [hsame]
    split
    · rename_i heq
      rwa [heq] at hopen
    · rename_i heq
      rw [heq] at hopen
      dsimp only
      split
      · exact reachable_flush hopen _
      · exact hopen
  | append name data => exact reachable_withWriter h fun w => reachable_append h w data
  | flush name | finish name | discard name =>
    exact reachable_withWriter h fun w => reachable_flush h w
  | openRead | readSome =>
    rw [(serve_read rfl).1]
    exact h

/-- **All that is asked of the handles of a store leaves a disk that requests make.** -/
theorem reachable_run (h : session.store.disk.Reachable) (requests : List Request) :
    (run session requests).store.disk.Reachable := by
  induction requests generalizing session with
  | nil => exact h
  | cons r requests ih => exact ih (reachable_serve h r)

end DiskStore

end Apportion
