/-
  Handles open on the files of a disk, several of them at once, also on one file.

  * `Request`, `serve`, `run`: what is asked of the handles, one request after the other.
  * `touched`, `alters_serve`: the files that a request may change, and that it changes no others.
  * `Along`: conditions on the requests of a run, each in the session that it is served in.
  * `Follows`, `Follows.serve`, `Follows.run`: a name stands for a writer that holds what was
    written under it, and if no one else changes its file, the file has what was passed on.
  * `finish_after_any_run`: what finishing leaves of the file, whoever else writes it.
  * `sole_writer`: a file that only one handle writes.
-/
import Apportion.Proofs.Disk.Writing
import Apportion.Session

namespace Apportion

namespace Disk

/-! ## Changes of some files -/

/-- What happens to a disk when files at some locations are written: paths lead to the files that
    they led to, and the files elsewhere are the same as before. -/
structure Alters (touched : Location → Prop) (d d' : Disk) : Prop where
  locate : ∀ p loc content, d.locate p = .ok (loc, .file content) →
    ∃ content', d'.locate p = .ok (loc, .file content')
  file_iff : ∀ loc, ¬ touched loc → ∀ content,
    d'.find? loc = some (.file content) ↔ d.find? loc = some (.file content)

namespace Alters

variable {touched : Location → Prop} {d d' d'' : Disk} {loc : Location}

theorem refl (touched : Location → Prop) (d : Disk) : Alters touched d d :=
  ⟨fun _ _ content h => ⟨content, h⟩, fun _ _ _ => Iff.rfl⟩

theorem trans (h : Alters touched d d') (h' : Alters touched d' d'') : Alters touched d d'' where
  locate p loc content hp := by
    obtain ⟨content', hp'⟩ := h.locate p loc content hp
    exact h'.locate p loc content' hp'
  file_iff loc hloc content := (h'.file_iff loc hloc content).trans (h.file_iff loc hloc content)

theorem imp {touched' : Location → Prop} (h : Alters touched d d')
    (himp : ∀ loc, touched loc → touched' loc) : Alters touched' d d' :=
  ⟨h.locate, fun loc hloc => h.file_iff loc fun htouched => hloc (himp loc htouched)⟩

theorem of_grows (hloc : touched loc) (h : Grows loc d d') : Alters touched d d' where
  locate p l content hp := by
    obtain ⟨content', hp', -⟩ := h.locate hp
    exact ⟨content', hp'⟩
  file_iff l hl := h.file_iff fun heq => hl (heq ▸ hloc)

/-- What adds directories alone leaves all files as they are. -/
theorem of_forall_grows (h : ∀ loc, Grows loc d d') : Alters touched d d' where
  locate p l content hp := by
    obtain ⟨content', hp', -⟩ := (h l).locate hp
    exact ⟨content', hp'⟩
  -- any location but `l` itself will do
  file_iff l _ := (h ("" :: l)).file_iff (List.cons_ne_self "" l).symm

/-- Files that are touched by nothing keep their content, and their paths. -/
theorem locate_eq (h : Alters touched d d') (hloc : ¬ touched loc) {p : Path} {content : Octets}
    (hp : d.locate p = .ok (loc, .file content)) : d'.locate p = .ok (loc, .file content) := by
  obtain ⟨content', hp'⟩ := h.locate p loc content hp
  have hfind := (locate_eq_ok_iff.1 hp).2.2.1
  have hfind' := (locate_eq_ok_iff.1 hp').2.2.1
  rw [(h.file_iff loc hloc content).2 hfind] at hfind'
  cases hfind'
  exact hp'

end Alters

end Disk

namespace DiskStore

open Disk

deriving instance DecidableEq for Writer

/-! ## Requests -/

/-- What can be asked of the handles open on a disk, under their names. -/
inductive Request
  | openWrite (name : String) (path : Path)
  | append (name : String) (data : Octets)
  | flush (name : String)
  | finish (name : String)
  | discard (name : String)
  | openRead (name : String) (path : Path)
  | readSome (name : String) (n : Nat)

namespace Request

/-- The name of the writer that a request is for. -/
def writer? : Request → Option String
  | openWrite name _ | append name _ | flush name | finish name | discard name => some name
  | openRead .. | readSome .. => none

/-- Whether another writer, or none, has the name after this request. -/
def endsWriter (name : String) : Request → Bool
  | openWrite other _ | finish other | discard other => other = name
  | _ => false

/-- What the request writes under a name. -/
def appended (name : String) : Request → Octets
  | append other data => if other = name then data else []
  | _ => []

end Request

/-- The session that a request leaves. -/
def serve (s : Session DiskStore) : Request → Session DiskStore
  | .openWrite name path => (s.openWrite name path).2
  | .append name data => (s.append name data).2
  | .flush name => (s.flush name).2
  | .finish name => (s.finish name).2
  | .discard name => (s.discard name).2
  | .openRead name path => (s.openRead name path).2
  | .readSome name n => (s.readSome name n).2

/-- The session that requests leave, one after the other. -/
def run (s : Session DiskStore) (requests : List Request) : Session DiskStore :=
  requests.foldl serve s

/-- The location of the file that a request opens to be written. -/
def opened? (d : DiskStore) : Request → Option Location
  | .openWrite _ path => (d.openWrite path).1.toOption.map Writer.location
  | _ => none

/-- The files that a request may change: that of the writer it is for, and the one it opens. -/
def touched (s : Session DiskStore) (r : Request) : List Location :=
  ((r.writer?.bind s.writers.get?).map Writer.location).toList ++ (opened? s.store r).toList

/-- A condition on the requests of a run, each in the session that it is served in. -/
def Along (condition : Session DiskStore → Request → Prop) :
    Session DiskStore → List Request → Prop
  | _, [] => True
  | s, r :: later => condition s r ∧ Along condition (serve s r) later

instance Along.decidable {condition : Session DiskStore → Request → Prop}
    [∀ s r, Decidable (condition s r)] :
    ∀ (s : Session DiskStore) (requests : List Request), Decidable (Along condition s requests)
  | _, [] => .isTrue trivial
  | s, r :: later =>
    have : Decidable (Along condition (serve s r) later) := Along.decidable _ _
    inferInstanceAs (Decidable (condition s r ∧ Along condition (serve s r) later))

variable {s : Session DiskStore} {name : String} {path : Path} {w : Writer}

/-! ## What a request changes -/

/-- A request that reads changes neither files nor writers. -/
theorem serve_read {r : Request} (hr : r.writer? = none) :
    (serve s r).store = s.store ∧ (serve s r).writers = s.writers := by
  cases r with
  | openRead name path =>
    change (s.openRead name path).2.store = _ ∧ (s.openRead name path).2.writers = _
    unfold Session.openRead
    split <;> exact ⟨rfl, rfl⟩
  | readSome name n =>
    change (s.readSome name n).2.store = _ ∧ (s.readSome name n).2.writers = _
    unfold Session.readSome
    split <;> exact ⟨rfl, rfl⟩
  | _ => cases hr

/-- Opening a file to be written changes that file alone, and none if it fails. -/
theorem alters_openWrite (d : DiskStore) (name : String) (path : Path) :
    ∃ disk, (d.openWrite path).2 = { d with disk } ∧
      Alters (opened? d (.openWrite name path) = some ·) d.disk disk := by
  dsimp only [opened?]
  cases hopen : d.openWrite path with
  | mk result after =>
    cases result with
    | ok w =>
      obtain ⟨disk, rfl, hgrows, -⟩ := openWrite_eq_ok hopen
      exact ⟨disk, rfl, .of_grows rfl hgrows⟩
    | error failure =>
      have hparent := makeParent_snd d (d.full path)
      have hafter : after = (d.makeParent (d.full path)).2 := by
        unfold openWrite at hopen
        dsimp only at hopen
        split at hopen
        · rename_i hmade
          cases hopen
          rw [hmade]
        · rename_i hmade
          split at hopen <;> cases hopen
          rw [hmade]
      obtain ⟨disk, hdisk, -⟩ := hparent []
      refine ⟨disk, hafter.trans hdisk, .of_forall_grows fun loc => ?_⟩
      obtain ⟨disk', hdisk', hgrows⟩ := hparent loc
      cases hdisk.symm.trans hdisk'
      exact hgrows

section
variable {act : DiskStore → Writer → Option Writer × DiskStore}

/-- What is done with a writer changes the file of that writer alone. -/
theorem alters_withWriter
    (hact : ∀ w, ∃ data w', Advances s.store w data w' (act s.store w).2) :
    ∃ disk, (s.withWriter name act).2.store = { s.store with disk } ∧
      Alters ((s.writers.get? name).map Writer.location = some ·) s.store.disk disk := by
  unfold Session.withWriter
  cases hget : s.writers.get? name with
  | none => exact ⟨_, rfl, .refl ..⟩
  | some w =>
    obtain ⟨data, w', hadvances⟩ := hact w
    have halters : Alters (some w.location = some ·) _ _ := .of_grows rfl hadvances.grows
    dsimp only
    split <;> rename_i heq <;> rw [heq] at hadvances halters <;>
      exact ⟨_, hadvances.store, halters⟩

end

theorem mem_touched_iff {r : Request} {loc : Location} : loc ∈ touched s r ↔
    (r.writer?.bind s.writers.get?).map Writer.location = some loc ∨
      opened? s.store r = some loc := by
  rw [touched, List.mem_append, Option.mem_toList, Option.mem_toList]

/-- **A request changes no file but those that it touches.** -/
theorem alters_serve (s : Session DiskStore) (r : Request) :
    ∃ disk, (serve s r).store = { s.store with disk } ∧
      Alters (· ∈ touched s r) s.store.disk disk := by
  have hwriter {name : String} {act : DiskStore → Writer → Option Writer × DiskStore}
      (hname : r.writer? = some name)
      (hact : ∀ w, ∃ data w', Advances s.store w data w' (act s.store w).2) :
      ∃ disk, (s.withWriter name act).2.store = { s.store with disk } ∧
        Alters (· ∈ touched s r) s.store.disk disk := by
    obtain ⟨disk, hstore, halters⟩ := alters_withWriter hact
    refine ⟨disk, hstore, halters.imp fun loc hloc => mem_touched_iff.2 (Or.inl ?_)⟩
    rw [hname]
    exact hloc
  cases r with
  | append name data => exact hwriter rfl fun w => ⟨data, _, advances_append ..⟩
  | flush name | finish name | discard name => exact hwriter rfl fun w => ⟨[], _, advances_flush ..⟩
  | openRead | readSome => exact ⟨s.store.disk, (serve_read rfl).1, .refl ..⟩
  | openWrite name path =>
    obtain ⟨disk, hstore, halters⟩ := alters_openWrite s.store name path
    have halters : Alters (· ∈ touched s (.openWrite name path)) s.store.disk disk :=
      halters.imp fun loc hloc => mem_touched_iff.2 (Or.inr hloc)
    change ∃ disk, (s.openWrite name path).2.store = _ ∧ _
    unfold Session.openWrite
    have hsame : Store.openWrite s.store path = s.store.openWrite path := rfl
    rw [hsame]
    cases hopen : s.store.openWrite path with
    | mk result after =>
      rw [hopen] at hstore
      obtain rfl : after = { s.store with disk } := hstore
      cases result with
      | error failure => exact ⟨disk, rfl, halters⟩
      | ok w =>
        cases hformer : s.writers.get? name with
        | none => exact ⟨disk, rfl, halters⟩
        | some former =>
          -- the writer that had the name is given up
          have hflush := advances_flush { s.store with disk } former
          have hformer : former.location ∈ touched s (.openWrite name path) :=
            mem_touched_iff.2 (Or.inl (congrArg (Option.map Writer.location) hformer))
          exact ⟨_, hflush.store, halters.trans (.of_grows hformer hflush.grows)⟩

theorem get?_writers_withWriter {other : String} (hother : name ≠ other)
    (act : DiskStore → Writer → Option Writer × DiskStore) :
    (s.withWriter other act).2.writers.get? name = s.writers.get? name := by
  unfold Session.withWriter
  cases s.writers.get? other with
  | none => rfl
  | some w =>
    dsimp only
    split
    · exact Keyed.get?_put_of_ne _ _ hother
    · exact (Keyed.get?_erase ..).trans (if_neg hother)

/-- A request that is not for a name leaves the writer that has the name. -/
theorem get?_writers_serve {r : Request} (hr : r.writer? ≠ some name) :
    (serve s r).writers.get? name = s.writers.get? name := by
  have hne {other : String} (h : some other ≠ some name) : name ≠ other :=
    fun heq => h (heq ▸ rfl)
  cases r with
  | append other data => exact get?_writers_withWriter (hne hr) _
  | flush other | finish other | discard other => exact get?_writers_withWriter (hne hr) _
  | openRead | readSome => rw [(serve_read rfl).2]
  | openWrite other path =>
    change (s.openWrite other path).2.writers.get? name = _
    unfold Session.openWrite
    split
    · rfl
    · exact Keyed.get?_put_of_ne _ _ (hne hr)

theorem appended_of_ne {r : Request} (hr : r.writer? ≠ some name) : r.appended name = [] := by
  cases r with
  | append other data => exact if_neg fun heq => hr (congrArg some heq)
  | _ => rfl

section
variable (hget : s.writers.get? name = some w)
include hget

theorem serve_append (data : Octets) : serve s (.append name data) =
    { s with
      store := (s.store.append w data).2
      writers := s.writers.put name (s.store.append w data).1 } := by
  change (s.withWriter name _).2 = _
  rw [Session.withWriter, hget]
  rfl

theorem serve_flush : serve s (.flush name) =
    { s with
      store := (s.store.flush w).2
      writers := s.writers.put name (s.store.flush w).1 } := by
  change (s.withWriter name _).2 = _
  rw [Session.withWriter, hget]
  rfl

theorem serve_finish : serve s (.finish name) =
    { s with store := (s.store.flush w).2, writers := s.writers.erase name } := by
  change (s.withWriter name _).2 = _
  rw [Session.withWriter, hget]
  rfl

theorem serve_discard : serve s (.discard name) = serve s (.finish name) := by
  rw [serve_finish hget]
  change (s.withWriter name _).2 = _
  rw [Session.withWriter, hget]
  rfl

end

/-! ## Following a writer -/

/-- A name stands for a writer that holds the bytes written under it, and a path leads to its
    file. -/
structure Follows (s : Session DiskStore) (name : String) (path : Path) (w : Writer)
    (content written : Octets) : Prop where
  writer : s.writers.get? name = some w
  holds : w.Holds written
  leads : s.store.disk.locate (s.store.full path) = .ok (w.location, .file content)

/-- Requests that are not for the writer leave the file at a path as it is. -/
def LeavesFile (name : String) (path : Path) (s : Session DiskStore) (r : Request) : Prop :=
  r.writer? ≠ some name → Store.read (serve s r).store path = Store.read s.store path

/-- Requests that are not for the writer do not touch a file. -/
def Avoids (name : String) (loc : Location) (s : Session DiskStore) (r : Request) : Prop :=
  r.writer? ≠ some name → loc ∉ touched s r

instance (s : Session DiskStore) (r : Request) : Decidable (LeavesFile name path s r) :=
  inferInstanceAs (Decidable (_ → _))

instance (loc : Location) (s : Session DiskStore) (r : Request) :
    Decidable (Avoids name loc s r) :=
  inferInstanceAs (Decidable (_ → _))

namespace Follows

variable {content written : Octets}

theorem read_eq (h : Follows s name path w content written) :
    Store.read s.store path = .ok content :=
  read_eq_ok_iff.2 ⟨w.location, h.leads⟩

theorem find?_eq (h : Follows s name path w content written) :
    s.store.disk.find? w.location = some (.file content) :=
  (locate_eq_ok_iff.1 h.leads).2.2.1

/-- Something is done through the writer. -/
theorem advance (h : Follows s name path w content written) {data : Octets} {w' : Writer}
    {d : DiskStore} (hadvances : Advances s.store w data w' d) :
    ∃ content', Follows { s with store := d, writers := s.writers.put name w' } name path w'
        content' (written ++ data) ∧
      (content = written.take w.position → content' = (written ++ data).take w'.position) := by
  obtain ⟨content', hlocate, -⟩ := hadvances.grows.locate h.leads
  have hfull : d.full path = s.store.full path := by rw [hadvances.store]; rfl
  refine ⟨content', ⟨?_, hadvances.holds h.holds, ?_⟩, fun hcontent => ?_⟩
  · exact (Keyed.get?_put ..).trans (if_pos rfl)
  · dsimp only
    rw [hfull, hadvances.location, hlocate]
  · have hfind := hadvances.find?_take h.holds (hcontent ▸ h.find?_eq)
    rw [hadvances.location, (locate_eq_ok_iff.1 hlocate).2.2.1] at hfind
    cases hfind
    rfl

/-- **One request**, whatever it is for: the name still stands for the writer, and if the file has
    just what was passed on, so it has afterwards, unless someone else changes it. -/
theorem serve (h : Follows s name path w content written) {r : Request}
    (hr : r.endsWriter name = false) :
    ∃ w' content', Follows (serve s r) name path w' content' (written ++ r.appended name) ∧
      w'.location = w.location ∧
      (content = written.take w.position → LeavesFile name path s r →
        content' = (written ++ r.appended name).take w'.position) := by
  by_cases hname : r.writer? = some name
  · -- the request is for the writer, which stays open
    cases r with
    | append other data =>
      obtain rfl := Option.some.inj hname
      have hadvances := advances_append s.store w data
      obtain ⟨content', h', htake⟩ := h.advance hadvances
      rw [serve_append h.writer, Request.appended, if_pos rfl]
      exact ⟨_, content', h', hadvances.location, fun hcontent _ => htake hcontent⟩
    | flush other =>
      obtain rfl := Option.some.inj hname
      obtain ⟨content', h', htake⟩ := h.advance (advances_flush s.store w)
      rw [serve_flush h.writer]
      exact ⟨_, content', h', rfl, fun hcontent _ => htake hcontent⟩
    | openWrite other | finish other | discard other =>
      exact absurd (Option.some.inj hname) (of_decide_eq_false hr)
    | openRead | readSome => cases hname
  · rw [appended_of_ne hname, List.append_nil]
    obtain ⟨disk, hstore, halters⟩ := alters_serve s r
    obtain ⟨content', hlocate⟩ := halters.locate _ _ _ h.leads
    have h' : Follows (DiskStore.serve s r) name path w content' written := by
      refine ⟨(get?_writers_serve hname).trans h.writer, h.holds, ?_⟩
      rw [hstore]
      exact hlocate
    refine ⟨w, content', h', rfl, fun hcontent hleaves => ?_⟩
    have hread := hleaves hname
    rw [h'.read_eq, h.read_eq] at hread
    cases hread
    exact hcontent

theorem run {during : List Request} (h : Follows s name path w content written)
    (hduring : ∀ r ∈ during, r.endsWriter name = false) :
    ∃ w' content', Follows (run s during) name path w' content'
        (written ++ during.flatMap (Request.appended name)) ∧
      w'.location = w.location ∧
      (content = written.take w.position → Along (LeavesFile name path) s during →
        content' = (written ++ during.flatMap (Request.appended name)).take w'.position) := by
  induction during generalizing s w content written with
  | nil =>
    refine ⟨w, content, ?_, rfl, fun hcontent _ => ?_⟩
    · rw [List.flatMap_nil, List.append_nil]
      exact h
    · rw [List.flatMap_nil, List.append_nil]
      exact hcontent
  | cons r later ih =>
    obtain ⟨hr, hlater⟩ := List.forall_mem_cons.1 hduring
    obtain ⟨w', content', h', hlocation, htake⟩ := h.serve hr
    obtain ⟨w'', content'', h'', hlocation', htake'⟩ := ih h' hlater
    rw [List.append_assoc, ← List.flatMap_cons] at h'' htake'
    exact ⟨w'', content'', h'', hlocation'.trans hlocation, fun hcontent halong =>
      htake' (htake hcontent halong.1) halong.2⟩

/-- Opening a file to be written: it is empty, and the writer is at its start. -/
theorem of_openWrite (hopen : (s.store.openWrite path).1 = .ok w)
    (hformer : ∀ former, s.writers.get? name = some former → former.location ≠ w.location) :
    Follows (s.openWrite name path).2 name path w [] [] := by
  have hsame : Store.openWrite s.store path = s.store.openWrite path := rfl
  unfold Session.openWrite
  rw [hsame]
  cases h : s.store.openWrite path with
  | mk result after =>
    rw [h] at hopen
    obtain rfl : result = .ok w := hopen
    obtain ⟨disk, rfl, -, hlocate, hposition, hpending⟩ := openWrite_eq_ok h
    have hholds : w.Holds [] := ⟨hposition ▸ Nat.le_refl 0, hpending.trans List.drop_nil.symm⟩
    refine ⟨(Keyed.get?_put ..).trans (if_pos rfl), hholds, ?_⟩
    dsimp only
    cases hget : s.writers.get? name with
    | none => exact hlocate
    | some former =>
      -- what the writer that had the name kept back goes to another file
      have hgrows := (advances_flush { s.store with disk } former).grows
      obtain ⟨content, hlocate', heq⟩ := hgrows.locate hlocate
      rw [heq (hformer former hget).symm] at hlocate'
      exact hlocate'

/-- There are three ways to pass all bytes on. -/
theorem store_serve_eq (h : Follows s name path w content written) {r : Request}
    (hr : r ∈ [Request.flush name, .finish name, .discard name]) :
    (DiskStore.serve s r).store = (s.store.flush w).2 := by
  simp only [List.mem_cons, List.not_mem_nil, or_false] at hr
  rcases hr with rfl | rfl | rfl
  · rw [serve_flush h.writer]
  · rw [serve_finish h.writer]
  · rw [serve_discard h.writer, serve_finish h.writer]

/-- What passing all bytes on does to a file: those kept back go to the position of the writer. -/
theorem read_serve (h : Follows s name path w content written) {r : Request}
    (hr : r ∈ [Request.flush name, .finish name, .discard name]) :
    Store.read (DiskStore.serve s r).store path =
      .ok (patched content w.position (written.drop w.position)) := by
  obtain ⟨content', hlocate, -⟩ := (advances_flush s.store w).grows.locate h.leads
  have hfind : (s.store.flush w).2.disk.find? w.location =
      some (.file (patched content w.position w.pending)) :=
    (find?_writeAt_patched h.find?_eq ..).trans (if_pos rfl)
  rw [(locate_eq_ok_iff.1 hlocate).2.2.1, h.holds.pending_eq] at hfind
  cases hfind
  rw [h.store_serve_eq hr]
  exact read_eq_ok_iff.2 ⟨w.location, hlocate⟩

/-- A file that has just what was passed on has all bytes once it is completed. -/
theorem patched_take (h : Follows s name path w content written)
    (hcontent : content = written.take w.position) :
    patched content w.position (written.drop w.position) = written := by
  have hlength : content.length = w.position := by
    rw [hcontent, List.length_take_of_le h.holds.position_le]
  have hend := patched_length content (written.drop w.position)
  rw [hlength] at hend
  rw [hend, hcontent, List.take_append_drop]

/-- Requests that do not touch a file leave it as it is. -/
theorem leavesFile (h : Follows s name path w content written) {r : Request}
    (havoids : Avoids name w.location s r) : LeavesFile name path s r := by
  intro hname
  obtain ⟨disk, hstore, halters⟩ := alters_serve s r
  have hlocate := halters.locate_eq (havoids hname) h.leads
  rw [hstore, h.read_eq]
  exact read_eq_ok_iff.2 ⟨w.location, hlocate⟩

theorem along_leavesFile {during : List Request} (h : Follows s name path w content written)
    (hduring : ∀ r ∈ during, r.endsWriter name = false)
    (halone : Along (Avoids name w.location) s during) :
    Along (LeavesFile name path) s during := by
  induction during generalizing s w content written with
  | nil => trivial
  | cons r later ih =>
    obtain ⟨hr, hlater⟩ := List.forall_mem_cons.1 hduring
    obtain ⟨w', content', h', hlocation, -⟩ := h.serve hr
    exact ⟨h.leavesFile halone.1, ih h' hlater (hlocation ▸ halone.2)⟩

/-- What is done through the writer changes no other file. -/
theorem find?_serve_iff (h : Follows s name path w content written) {r : Request} {data : Octets}
    (hr : r ∈ [Request.append name data, .flush name, .finish name, .discard name])
    {loc : Location} (hloc : loc ≠ w.location) (other : Octets) :
    (DiskStore.serve s r).store.disk.find? loc = some (.file other) ↔
      s.store.disk.find? loc = some (.file other) := by
  obtain ⟨disk, hstore, halters⟩ := alters_serve s r
  rw [hstore]
  refine halters.file_iff loc ?_ other
  have htouched : touched s r = [w.location] := by
    simp only [List.mem_cons, List.not_mem_nil, or_false] at hr
    rcases hr with rfl | rfl | rfl | rfl <;>
      simp [touched, opened?, Request.writer?, h.writer]
  rwa [htouched, List.mem_singleton]

end Follows

/-! ## Main results -/

/-- **What finishing leaves of a file**, after any requests, with any number of handles open on it:
    the writer passed on the first bytes written through it before, and now the others, to where
    they belong; before and behind them it leaves what is there. So the file has exactly what was
    written through the handle if no one else has changed it since it was opened. -/
theorem finish_after_any_run {during : List Request} (hopen : (s.store.openWrite path).1 = .ok w)
    (hformer : ∀ former, s.writers.get? name = some former → former.location ≠ w.location)
    (hduring : ∀ r ∈ during, r.endsWriter name = false) :
    let t := run (s.openWrite name path).2 during
    let written := during.flatMap (Request.appended name)
    ∃ w' before after, t.writers.get? name = some w' ∧ w'.Holds written ∧
      Store.read t.store path = .ok before ∧
      Store.read (serve t (.finish name)).store path = .ok after ∧
      before.take w'.position <+: after ∧
      after.drop w'.position = written.drop w'.position ++ before.drop written.length ∧
      (Along (LeavesFile name path) (s.openWrite name path).2 during → after = written) := by
  intro t written
  obtain ⟨w', before, h, -, htake⟩ := (Follows.of_openWrite hopen hformer).run hduring
  rw [List.nil_append] at h htake
  refine ⟨w', before, _, h.writer, h.holds, h.read_eq, h.read_serve (by simp),
    take_prefix_patched .., ?_,
    fun halone => h.patched_take (htake List.take_nil.symm halone)⟩
  rw [drop_patched, List.length_drop, Nat.add_sub_cancel' h.holds.position_le]

/-- Two writers and a reader on one file: the first one has nothing to say, and the second one has
    its bytes in the file at the end, of which the reader saw some. -/
theorem finish_after_any_run_silent_writer :
    let store : DiskStore := ⟨⟨""⟩, 4, 1, [], .empty⟩
    let s := run (.of store) [.openWrite "v" ⟨"f"⟩, .append "v" [9, 9, 9, 9, 9], .flush "v"]
    let during : List Request :=
      [.append "w" [1, 2, 3], .append "w" [4, 5], .openRead "r" ⟨"f"⟩, .readSome "r" 2, .flush "v",
        .append "w" [6]]
    Store.read (serve (run (s.openWrite "w" ⟨"f"⟩).2 during) (.finish "w")).store ⟨"f"⟩ =
      .ok [1, 2, 3, 4, 5, 6] := by
  intro store s during
  have hopen : (s.store.openWrite ⟨"f"⟩).1 = .ok ⟨["f"], 4, 0, []⟩ := by decide +kernel
  have hfree : s.writers.get? "w" = none := by decide +kernel
  have hformer : ∀ former, s.writers.get? "w" = some former → former.location ≠ ["f"] := by
    simp [hfree]
  have hduring : ∀ r ∈ during, r.endsWriter "w" = false := by decide
  obtain ⟨w, before, after, -, -, -, hafter, -, -, hwritten⟩ :=
    finish_after_any_run hopen hformer hduring
  have hleaves : Along (LeavesFile "w" ⟨"f"⟩) (s.openWrite "w" ⟨"f"⟩).2 during := by
    decide +kernel
  exact hafter.trans (congrArg _ (hwritten hleaves))

/-- Two writers on one file do mix their bytes: the one that is finished last writes over the start
    of what the other one wrote. -/
theorem finish_mixes_bytes : ¬ ∀ (s : Session DiskStore) (name : String) (path : Path) (w : Writer)
    (during : List Request), (s.store.openWrite path).1 = .ok w →
      (∀ former, s.writers.get? name = some former → former.location ≠ w.location) →
      (∀ r ∈ during, r.endsWriter name = false) →
      Store.read (serve (run (s.openWrite name path).2 during) (.finish name)).store path =
        .ok (during.flatMap (Request.appended name)) := by
  intro h
  let store : DiskStore := ⟨⟨""⟩, 4, 1, [], .empty⟩
  let s := run (.of store) [.openWrite "a" ⟨"f"⟩]
  let during : List Request := [.append "a" [1, 1, 1], .finish "a", .append "b" [2]]
  have hread : Store.read (serve (run (s.openWrite "b" ⟨"f"⟩).2 during) (.finish "b")).store ⟨"f"⟩ =
      .ok [2, 1, 1] := by decide +kernel
  have hopen : (s.store.openWrite ⟨"f"⟩).1 = .ok ⟨["f"], 4, 0, []⟩ := by decide +kernel
  have hfree : s.writers.get? "b" = none := by decide +kernel
  have hformer : ∀ former, s.writers.get? "b" = some former → former.location ≠ ["f"] := by
    simp [hfree]
  have hclaim := h s "b" ⟨"f"⟩ ⟨["f"], 4, 0, []⟩ during hopen hformer (by decide)
  rw [hread] at hclaim
  cases hclaim

/-- **A file that only one handle writes**, whatever is asked of the handles on other files. -/
theorem sole_writer {during : List Request} (hopen : (s.store.openWrite path).1 = .ok w)
    (hformer : ∀ former, s.writers.get? name = some former → former.location ≠ w.location)
    (hduring : ∀ r ∈ during, r.endsWriter name = false)
    (halone : Along (Avoids name w.location) (s.openWrite name path).2 during) :
    let opened := (s.openWrite name path).2
    let t := run opened during
    let written := during.flatMap (Request.appended name)
    Store.read opened.store path = .ok [] ∧
    (∃ content, Store.read t.store path = .ok content ∧ content <+: written) ∧
    (∀ r ∈ [Request.flush name, .finish name, .discard name],
      Store.read (serve t r).store path = .ok written) ∧
    (∀ loc content, loc ≠ w.location →
      ((s.store.openWrite path).2.disk.find? loc = some (.file content) ↔
        s.store.disk.find? loc = some (.file content))) ∧
    (∀ data, ∀ r ∈ [Request.append name data, .flush name, .finish name, .discard name],
      ∀ loc content, loc ≠ w.location →
        ((serve t r).store.disk.find? loc = some (.file content) ↔
          t.store.disk.find? loc = some (.file content))) := by
  intro opened t written
  have hfollows := Follows.of_openWrite hopen hformer
  obtain ⟨w', content, h, hlocation, htake⟩ := hfollows.run hduring
  rw [List.nil_append] at h htake
  have hcontent := htake List.take_nil.symm (hfollows.along_leavesFile hduring halone)
  refine ⟨hfollows.read_eq, ⟨content, h.read_eq, ?_⟩, fun r hr => ?_, fun loc other hloc => ?_,
    fun data r hr loc other hloc => h.find?_serve_iff hr (hlocation ▸ hloc) other⟩
  · rw [hcontent]
    exact List.take_prefix ..
  · rw [h.read_serve hr, h.patched_take hcontent]
  · obtain ⟨disk, hstore, halters⟩ := alters_openWrite s.store name path
    rw [hstore]
    refine halters.file_iff loc (fun hopened => hloc ?_) other
    rw [opened?, hopen] at hopened
    exact (Option.some.inj hopened).symm

/-- A writer that is alone on its file, next to another one on another file. -/
theorem sole_writer_beside_other :
    let store : DiskStore := ⟨⟨""⟩, 2, 1, [], .empty⟩
    let s := run (.of store) [.openWrite "v" ⟨"d/g"⟩, .append "v" [9]]
    let during : List Request :=
      [.append "w" [1], .append "v" [8, 7], .append "w" [2, 3], .append "w" [4], .finish "v"]
    let t := run (s.openWrite "w" ⟨"d/f"⟩).2 during
    (∃ content, Store.read t.store ⟨"d/f"⟩ = .ok content ∧ content <+: [1, 2, 3, 4]) ∧
    Store.read (serve t (.discard "w")).store ⟨"d/f"⟩ = .ok [1, 2, 3, 4] ∧
    (serve t (.discard "w")).store.disk.find? ["g", "d"] = some (.file [9, 8, 7]) := by
  intro store s during t
  have hopen : (s.store.openWrite ⟨"d/f"⟩).1 = .ok ⟨["f", "d"], 2, 0, []⟩ := by decide +kernel
  have hfree : s.writers.get? "w" = none := by decide +kernel
  have hformer : ∀ former, s.writers.get? "w" = some former → former.location ≠ ["f", "d"] := by
    simp [hfree]
  have halone : Along (Avoids "w" ["f", "d"]) (s.openWrite "w" ⟨"d/f"⟩).2 during := by
    decide +kernel
  have hwritten : during.flatMap (Request.appended "w") = [1, 2, 3, 4] := by decide
  have hduring : ∀ r ∈ during, r.endsWriter "w" = false := by decide
  obtain ⟨-, hfront, hwhole, -, hothers⟩ := sole_writer hopen hformer hduring halone
  rw [hwritten] at hfront hwhole
  refine ⟨hfront, hwhole (.discard "w") (by simp), ?_⟩
  rw [hothers [] (.discard "w") (by simp) ["g", "d"] [9, 8, 7] (by decide)]
  decide +kernel

end DiskStore

end Apportion
