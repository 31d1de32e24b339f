/-
  Open handles against a map whose files change as a whole.

  * `Request`, `serve`, `run`: what is asked of a catalog and of the handles open on it, one request
    after the other.
  * `Atomic`: the same requests on a map of files, with what is written apart from it and what the
    readers saw when they were opened.
  * `Refines.serve`, `Refines.run`: a session goes on as the map does.
  * `handles_refine_atomic_map`: no one sees a file that is half written, and no reader a change.
-/
import Mathlib.Algebra.GroupWithZero.Nat
import Mathlib.Logic.Function.Basic
import Apportion.Proofs.Store.Answers
import Apportion.Session

namespace Apportion

/-! ## What the answers of a catalog rest on -/

namespace Catalog

variable {c d : Catalog}

/-- Two catalogs give the same answers to all that ask without changing anything. -/
structure SameAnswers (c d : Catalog) : Prop where
  contains : ∀ path, Store.contains c path = Store.contains d path
  stat : ∀ path, Store.stat c path = Store.stat d path
  list : ∀ path, Store.list c path = Store.list d path
  read : ∀ path, Store.readSized c path = Store.readSized d path
  blocks : ∀ path start length, Store.blocks c path start length = Store.blocks d path start length

theorem SameAnswers.refl (c : Catalog) : SameAnswers c c :=
  ⟨fun _ => rfl, fun _ => rfl, fun _ => rfl, fun _ => rfl, fun _ _ _ => rfl⟩

theorem list_eq (c : Catalog) (path : Path) : c.list path =
    if (c.object? path).isSome then .error (.storage path "path is not a directory" none)
    else if c.names path = [] then .error (.notFound path)
    else .ok (Store.sortNames (c.names path)) := by
  unfold list names
  cases c.object? path with
  | some object => rfl
  | none => cases (c.below path).filterMap _ <;> rfl

/-- Answers rest on the files alone, not on the order in which they were put. -/
theorem sameAnswers_of_files (h : c.objects.get? = d.objects.get?) : SameAnswers c d := by
  have hobject : ∀ path, c.object? path = d.object? path := fun path => congrFun h path.components
  have hkeys : ∀ key, key ∈ c.objects.keys ↔ key ∈ d.objects.keys := fun key => by
    rw [← Keyed.isSome_get?_iff, ← Keyed.isSome_get?_iff, h]
  have hbelow : ∀ path steps, steps ∈ c.below path ↔ steps ∈ d.below path := fun path steps => by
    rw [mem_below, mem_below, hkeys]
  have hdirectory : ∀ path, c.isDirectory path = d.isDirectory path := fun path => by
    rw [isDirectory, isDirectory, Bool.not_inj_iff, Bool.eq_iff_iff, List.isEmpty_iff,
      List.isEmpty_iff, List.eq_nil_iff_forall_not_mem, List.eq_nil_iff_forall_not_mem]
    simp only [hbelow]
  have hnames : ∀ path name, name ∈ c.names path ↔ name ∈ d.names path := fun path name => by
    simp only [names, List.mem_filterMap, hbelow]
  refine ⟨fun path => ?_, fun path => ?_, fun path => ?_, fun path => ?_, fun path start length => ?_⟩
  · change ((c.object? path).isSome || c.isDirectory path) = _
    rw [hobject, hdirectory]
    rfl
  · change c.stat path = d.stat path
    simp only [stat, hobject, hdirectory]
  · change c.list path = d.list path
    have hnone : c.names path = [] ↔ d.names path = [] := by
      simp only [List.eq_nil_iff_forall_not_mem, hnames]
    simp only [list_eq, hobject, hnone, Store.sortNames_congr (hnames path)]
  · change (c.openRead path >>= fun reader => .ok (reader.size, reader.rest)) = _
    simp only [openRead, hobject]
    rfl
  · change c.blocks path start length = d.blocks path start length
    simp only [blocks, hobject]

end Catalog

namespace Session

open Catalog (Object)

/-! ## Requests -/

/-- What can be asked of a catalog and, under their names, of the handles open on it. -/
inductive Request
  | put (path : Path) (content : Octets)
  | putBlocks (path : Path) (size : UInt64) (blocks : List Block)
  | makeDirectories (path : Path)
  | openWrite (name : String) (path : Path)
  | append (name : String) (data : Octets)
  | flush (name : String)
  | finish (name : String)
  | discard (name : String)
  | openRead (name : String) (path : Path)
  | readSome (name : String) (n : Nat)

namespace Request

/-- Whether a file is complete with this request. -/
def completes : Request → Bool
  | put .. | putBlocks .. | finish _ => true
  | _ => false

/-- Whether another writer, or none, has the name after this request. -/
def endsWriter (name : String) : Request → Bool
  | openWrite other _ | finish other | discard other => other = name
  | _ => false

/-- Whether another reader may have the name after this request. -/
def endsReader (name : String) : Request → Bool
  | openRead other _ => other = name
  | _ => false

/-- What the request writes under a name. -/
def appended? (name : String) : Request → Option Octets
  | append other data => if other = name then some data else none
  | _ => none

/-- How many bytes the request wants to read under a name. -/
def asked? (name : String) : Request → Option Nat
  | readSome other n => if other = name then some n else none
  | _ => none

end Request

/-- The session that a request leaves. -/
def serve (s : Session Catalog) : Request → Session Catalog
  | .put path content => { s with store := s.store.put path content }
  | .putBlocks path size blocks => { s with store := s.store.putBlocks path size blocks }
  | .makeDirectories path => { s with store := (Store.makeDirectories s.store path).2 }
  | .openWrite name path => (s.openWrite name path).2
  | .append name data => (s.append name data).2
  | .flush name => (s.flush name).2
  | .finish name => (s.finish name).2
  | .discard name => (s.discard name).2
  | .openRead name path => (s.openRead name path).2
  | .readSome name n => (s.readSome name n).2

theorem openRead_eq (s : Session Catalog) (name : String) (path : Path) :
    s.openRead name path = match s.store.object? path with
      | none => (.error (.notFound path), s)
      | some object =>
        let size := Quantity.clamp object.content.length
        (.ok size, { s with readers := s.readers.put name ⟨size, object.content⟩ }) := by
  have hopen : Store.openRead s.store path = s.store.openRead path := rfl
  unfold Session.openRead
  rw [hopen, Catalog.openRead]
  cases s.store.object? path <;> rfl

/-- What a session does for a name is what it does to the writer that has the name. -/
theorem withWriter_eq (s : Session Catalog) (name : String)
    (act : Catalog → Catalog.Writer → Option Catalog.Writer × Catalog) :
    (s.withWriter name act).2 = match s.writers.get? name with
      | none => s
      | some writer =>
        ⟨(act s.store writer).2, s.readers, match (act s.store writer).1 with
          | some writer => s.writers.put name writer
          | none => s.writers.erase name⟩ := by
  unfold withWriter
  cases s.writers.get? name with
  | none => rfl
  | some writer => dsimp only; split <;> simp only [*]

/-- The session that requests leave, one after the other. -/
def run (s : Session Catalog) (requests : List Request) : Session Catalog := requests.foldl serve s

/-- The answers to those of the requests that read under a name. -/
def portions (s : Session Catalog) (name : String) : List Request → List (Option (UInt64 × Octets))
  | [] => []
  | r :: later =>
    let rest := portions (s.serve r) name later
    match r.asked? name with
    | some n => (s.readSome name n).1 :: rest
    | none => rest

/-- Content cut into pieces of the sizes asked for, the last ones shorter when it ends. -/
def cuts (content : Octets) : List Nat → List Octets
  | [] => []
  | n :: sizes => content.take n :: cuts (content.drop n) sizes

theorem flatten_cuts (content : Octets) (sizes : List Nat) :
    (cuts content sizes).flatten = content.take sizes.sum := by
  induction sizes generalizing content with
  | nil => rfl
  | cons n sizes ih => rw [cuts, List.flatten_cons, ih, List.sum_cons, List.take_add]

/-! ## The map -/

/-- Files that change as a whole.  Apart from them: what has been written under a name so far, in
    pieces, and what a reader saw when it was opened, with the sizes asked for since. -/
structure Atomic where
  files : List Path.Component → Option Object
  drafts : String → Option (Path × List Octets)
  views : String → Option (Octets × List Nat)

namespace Atomic

/-- The files of a catalog, with nothing open. -/
def of (c : Catalog) : Atomic := ⟨c.objects.get?, fun _ => none, fun _ => none⟩

/-- Has a file in place of what is at its path. -/
def keep (a : Atomic) (path : Path) (object : Object) : Atomic :=
  { a with files := Function.update a.files path.components (some object) }

/-- What is written under a name from now on. -/
def draft (a : Atomic) (name : String) (d : Option (Path × List Octets)) : Atomic :=
  { a with drafts := Function.update a.drafts name d }

/-- What is read under a name from now on. -/
def view (a : Atomic) (name : String) (v : Option (Octets × List Nat)) : Atomic :=
  { a with views := Function.update a.views name v }

section
variable (a : Atomic) (path : Path) (object : Object) (name : String)
  (d : Option (Path × List Octets)) (v : Option (Octets × List Nat))

theorem files_keep (key : List Path.Component) : (a.keep path object).files key =
    if key = path.components then some object else a.files key := Function.update_apply ..

theorem drafts_draft (other : String) :
    (a.draft name d).drafts other = if other = name then d else a.drafts other :=
  Function.update_apply ..

theorem views_view (other : String) :
    (a.view name v).views other = if other = name then v else a.views other :=
  Function.update_apply ..

variable {a name d v}

theorem draft_self (h : a.drafts name = d) : a.draft name d = a := by
  rw [draft, ← h, Function.update_eq_self]

theorem view_self (h : a.views name = v) : a.view name v = a := by
  rw [view, ← h, Function.update_eq_self]

end

/-- What a request leaves: a file is replaced when it is put or finished, and then at once. -/
def serve (a : Atomic) : Request → Atomic
  | .put path content => a.keep path (.ofContent content)
  | .putBlocks path size blocks => a.keep path (.ofBlocks size blocks)
  | .makeDirectories _ | .flush _ => a
  | .openWrite name path => a.draft name (some (path, []))
  | .append name data => a.draft name ((a.drafts name).map fun d => (d.1, d.2 ++ [data]))
  | .finish name =>
    match a.drafts name with
    | some (path, pieces) => (a.keep path (.ofContent pieces.flatten)).draft name none
    | none => a
  | .discard name => a.draft name none
  | .openRead name path =>
    match a.files path.components with
    | some object => a.view name (some (object.content, []))
    | none => a
  | .readSome name n => a.view name ((a.views name).map fun v => (v.1, v.2 ++ [n]))

/-- What requests leave, one after the other. -/
def run (a : Atomic) (requests : List Request) : Atomic := requests.foldl serve a

variable {a : Atomic} {r : Request} {name : String} {path : Path}

theorem files_finish {pieces : List Octets} (h : a.drafts name = some (path, pieces))
    (key : List Path.Component) : (a.serve (.finish name)).files key =
      if key = path.components then some (.ofContent pieces.flatten) else a.files key := by
  rw [serve, h]
  exact files_keep ..

theorem views_openRead {object : Object} (h : a.files path.components = some object) :
    (a.serve (.openRead name path)).views name = some (object.content, []) := by
  rw [serve, h]
  dsimp only
  rw [views_view, if_pos rfl]

/-! ### What requests leave alone -/

theorem files_serve (h : r.completes = false) : (a.serve r).files = a.files := by
  cases r with
  | put | putBlocks | finish => cases h
  | openRead _ path =>
    rw [serve]
    cases a.files path.components <;> rfl
  | _ => rfl

/-- A writer keeps its path, and adds what is written under its name. -/
theorem drafts_serve {pieces : List Octets} (hdraft : a.drafts name = some (path, pieces))
    (h : r.endsWriter name = false) :
    (a.serve r).drafts name = some (path, pieces ++ (r.appended? name).toList) := by
  have hsame : a.drafts name = some (path, pieces ++ []) := by rw [List.append_nil, hdraft]
  cases r with
  | append other data =>
    rw [serve, drafts_draft, Request.appended?]
    by_cases hother : other = name
    · subst hother
      rw [if_pos rfl, if_pos rfl, hdraft]
      rfl
    · rw [if_neg (Ne.symm hother), if_neg hother]
      exact hsame
  | openWrite other | discard other =>
    have hother : name ≠ other := fun e => of_decide_eq_false h e.symm
    rw [serve, drafts_draft, if_neg hother]
    exact hsame
  | finish other =>
    have hother : name ≠ other := fun e => of_decide_eq_false h e.symm
    rw [serve]
    cases a.drafts other with
    | none => exact hsame
    | some d =>
      dsimp only
      rw [drafts_draft, if_neg hother]
      exact hsame
  | openRead _ path =>
    rw [serve]
    cases a.files path.components <;> exact hsame
  | _ => exact hsame

theorem drafts_run {pieces : List Octets} {during : List Request}
    (hdraft : a.drafts name = some (path, pieces)) (h : ∀ r ∈ during, r.endsWriter name = false) :
    (a.run during).drafts name =
      some (path, pieces ++ during.filterMap (Request.appended? name)) := by
  induction during generalizing a pieces with
  | nil => rw [List.filterMap_nil, List.append_nil]; exact hdraft
  | cons r during ih =>
    obtain ⟨hr, hduring⟩ := List.forall_mem_cons.1 h
    have hnext := ih (drafts_serve hdraft hr) hduring
    rw [List.append_assoc] at hnext
    rw [List.filterMap_cons]
    cases happended : r.appended? name <;> rw [happended] at hnext <;> exact hnext

/-- A reader keeps what it saw, and is asked for what is asked for under its name. -/
theorem views_serve {content : Octets} {sizes : List Nat}
    (hview : a.views name = some (content, sizes)) (h : r.endsReader name = false) :
    (a.serve r).views name = some (content, sizes ++ (r.asked? name).toList) := by
  have hsame : a.views name = some (content, sizes ++ []) := by rw [List.append_nil, hview]
  cases r with
  | readSome other n =>
    rw [serve, views_view, Request.asked?]
    by_cases hother : other = name
    · subst hother
      rw [if_pos rfl, if_pos rfl, hview]
      rfl
    · rw [if_neg (Ne.symm hother), if_neg hother]
      exact hsame
  | openRead other path =>
    have hother : name ≠ other := fun e => of_decide_eq_false h e.symm
    rw [serve]
    cases a.files path.components with
    | none => exact hsame
    | some object =>
      dsimp only
      rw [views_view, if_neg hother]
      exact hsame
  | finish other =>
    rw [serve]
    cases a.drafts other <;> exact hsame
  | _ => exact hsame

end Atomic

/-! ## The simulation -/

/-- A session shows what the map has: its files are those of the map, a writer holds the pieces in
    one, and a reader what is left of the content that it saw. -/
structure Refines (a : Atomic) (s : Session Catalog) : Prop where
  files : s.store.objects.get? = a.files
  writers : ∀ name, s.writers.get? name =
    (a.drafts name).map fun d => (⟨d.1, d.2.flatten⟩ : Catalog.Writer)
  readers : ∀ name, s.readers.get? name =
    (a.views name).map fun v =>
      (⟨Quantity.clamp v.1.length, v.1.drop v.2.sum⟩ : Catalog.Reader)

theorem refines_of (c : Catalog) : Refines (.of c) (.of c) := ⟨rfl, fun _ => rfl, fun _ => rfl⟩

variable {a : Atomic} {s : Session Catalog} {name : String} {path : Path}

namespace Refines

theorem object? (h : Refines a s) (path : Path) : s.store.object? path = a.files path.components :=
  congrFun h.files path.components

theorem writer_cases (h : Refines a s) (name : String) :
    (a.drafts name = none ∧ s.writers.get? name = none) ∨
      ∃ path pieces, a.drafts name = some (path, pieces) ∧
        s.writers.get? name = some (⟨path, pieces.flatten⟩ : Catalog.Writer) := by
  rw [h.writers]
  cases a.drafts name with
  | none => exact .inl ⟨rfl, rfl⟩
  | some d => exact .inr ⟨d.1, d.2, rfl, rfl⟩

theorem reader_cases (h : Refines a s) (name : String) :
    (a.views name = none ∧ s.readers.get? name = none) ∨
      ∃ content sizes, a.views name = some (content, sizes) ∧ s.readers.get? name =
        some (⟨Quantity.clamp content.length, content.drop sizes.sum⟩ : Catalog.Reader) := by
  rw [h.readers]
  cases a.views name with
  | none => exact .inl ⟨rfl, rfl⟩
  | some v => exact .inr ⟨v.1, v.2, rfl, rfl⟩

/-! ### What changes -/

theorem keep (h : Refines a s) (path : Path) (object : Object) :
    Refines (a.keep path object)
      { s with store := ⟨s.store.objects.put path.components object⟩ } where
  files := by
    funext key
    rw [Atomic.files_keep, ← h.files]
    exact Keyed.get?_put ..
  writers := h.writers
  readers := h.readers

theorem draft (h : Refines a s) (name : String) (d : Path × List Octets) :
    Refines (a.draft name (some d)) { s with writers := s.writers.put name ⟨d.1, d.2.flatten⟩ } where
  files := h.files
  writers other := by
    rw [Keyed.get?_put, h.writers, Atomic.drafts_draft]
    split <;> rfl
  readers := h.readers

theorem undraft (h : Refines a s) (name : String) :
    Refines (a.draft name none) { s with writers := s.writers.erase name } where
  files := h.files
  writers other := by
    rw [Keyed.get?_erase, h.writers, Atomic.drafts_draft]
    split <;> rfl
  readers := h.readers

theorem view (h : Refines a s) (name : String) (v : Octets × List Nat) :
    Refines (a.view name (some v))
      { s with readers :=
          s.readers.put name ⟨Quantity.clamp v.1.length, v.1.drop v.2.sum⟩ } where
  files := h.files
  writers := h.writers
  readers other := by
    rw [Keyed.get?_put, h.readers, Atomic.views_view]
    split <;> rfl

/-! ### One request -/

/-- **A request keeps a session in step** with the map. -/
theorem serve (h : Refines a s) (r : Request) : Refines (a.serve r) (s.serve r) := by
  cases r with
  | put path content => exact h.keep path _
  | putBlocks path size blocks => exact h.keep path _
  | makeDirectories path => exact h
  | openWrite name path =>
    -- the writer that had the name leaves no trace in the catalog
    have hopened : s.serve (.openWrite name path) =
        { s with writers := s.writers.put name (⟨path, []⟩ : Catalog.Writer) } := by
      change (s.openWrite name path).2 = _
      unfold Session.openWrite
      cases s.writers.get? name <;> rfl
    rw [hopened]
    exact h.draft name (path, [])
  | append name data =>
    rw [Session.serve, Session.append, withWriter_eq, Atomic.serve]
    obtain ⟨hdraft, hwriter⟩ | ⟨path, pieces, hdraft, hwriter⟩ := h.writer_cases name
    · rw [hwriter, Atomic.draft_self (by rw [hdraft]; rfl)]
      exact h
    · have hnext := h.draft name (path, pieces ++ [data])
      rw [List.flatten_append, List.flatten_singleton] at hnext
      rw [hwriter, hdraft]
      exact hnext
  | flush name =>
    rw [Session.serve, Session.flush, withWriter_eq, Atomic.serve]
    obtain ⟨hdraft, hwriter⟩ | ⟨path, pieces, hdraft, hwriter⟩ := h.writer_cases name
    · rw [hwriter]
      exact h
    · rw [hwriter, ← Atomic.draft_self hdraft]
      exact h.draft name (path, pieces)
  | finish name =>
    rw [Session.serve, Session.finish, withWriter_eq, Atomic.serve]
    obtain ⟨hdraft, hwriter⟩ | ⟨path, pieces, hdraft, hwriter⟩ := h.writer_cases name
    · rw [hwriter, hdraft]
      exact h
    · rw [hwriter, hdraft]
      exact (h.keep path _).undraft name
  | discard name =>
    rw [Session.serve, Session.discard, withWriter_eq, Atomic.serve]
    obtain ⟨hdraft, hwriter⟩ | ⟨path, pieces, hdraft, hwriter⟩ := h.writer_cases name
    · rw [hwriter, Atomic.draft_self hdraft]
      exact h
    · rw [hwriter]
      exact h.undraft name
  | openRead name path =>
    rw [Session.serve, openRead_eq, h.object?, Atomic.serve]
    cases a.files path.components with
    | none => exact h
    | some object => exact h.view name (object.content, [])
  | readSome name n =>
    change Refines _ (s.readSome name n).2
    unfold Session.readSome
    obtain ⟨hview, hreader⟩ | ⟨content, sizes, hview, hreader⟩ := h.reader_cases name
    · rw [hreader, Atomic.serve, Atomic.view_self (by rw [hview]; rfl)]
      exact h
    · have hnext := h.view name (content, sizes ++ [n])
      rw [List.sum_append, List.sum_singleton, ← List.drop_drop] at hnext
      rw [hreader, Atomic.serve, hview]
      exact hnext

theorem run (h : Refines a s) (requests : List Request) :
    Refines (a.run requests) (s.run requests) := by
  induction requests generalizing a s with
  | nil => exact h
  | cons r requests ih => exact ih (h.serve r)

/-- What the next request to read under a name gets. -/
theorem fst_readSome (h : Refines a s) (name : String) (n : Nat) : (s.readSome name n).1 =
    (a.views name).map fun v =>
      (Quantity.clamp v.1.length, (v.1.drop v.2.sum).take n) := by
  unfold Session.readSome
  rw [h.readers]
  cases a.views name <;> rfl

/-- What a reader delivers is the content that it saw, cut into pieces of the sizes asked for. -/
theorem portions {content : Octets} {sizes : List Nat} {during : List Request} (h : Refines a s)
    (hview : a.views name = some (content, sizes)) (hduring : ∀ r ∈ during, r.endsReader name = false) :
    s.portions name during = (cuts (content.drop sizes.sum) (during.filterMap (Request.asked? name))).map
      fun bytes => some (Quantity.clamp content.length, bytes) := by
  induction during generalizing a s sizes with
  | nil => rfl
  | cons r during ih =>
    obtain ⟨hr, hduring⟩ := List.forall_mem_cons.1 hduring
    have hlater := ih (h.serve r) (Atomic.views_serve hview hr) hduring
    rw [Session.portions, List.filterMap_cons]
    cases hasked : r.asked? name with
    | none =>
      rw [hasked, Option.toList_none, List.append_nil] at hlater
      exact hlater
    | some n =>
      rw [hasked, Option.toList_some, List.sum_append, List.sum_singleton, ← List.drop_drop] at hlater
      dsimp only
      rw [hlater, h.fst_readSome, hview]
      rfl

end Refines

/-! ## Main result -/

/-- **Open handles refine a map whose files change as a whole.**  After any requests, with any number
    of writers and readers open, under any paths:

    * the files, and so all answers, are those of the map;
    * no answer changes but by putting or finishing a file;
    * whatever is asked in the meantime, finishing has a file with just what was written through the
      handle, and no blocks, in place of what is then at its path, and leaves all other files alone;
    * whatever is asked in the meantime, a reader tells the size and delivers the bytes of the file as
      it was when the reader was opened, however they are asked for, and then nothing. -/
theorem handles_refine_atomic_map (c : Catalog) (before : List Request) :
    let s := (Session.of c).run before
    let a := (Atomic.of c).run before
    (s.store.objects.get? = a.files ∧
      ∀ d : Catalog, d.objects.get? = a.files → Catalog.SameAnswers s.store d) ∧
    (∀ r : Request, r.completes = false → Catalog.SameAnswers (s.serve r).store s.store) ∧
    (∀ name path during, (∀ r ∈ during, r.endsWriter name = false) →
      let t := s.run (.openWrite name path :: during)
      let written := (during.filterMap (Request.appended? name)).flatten
      ∀ other, (t.serve (.finish name)).store.object? other =
        if other.components = path.components then some (.ofContent written)
        else t.store.object? other) ∧
    (∀ name path object during, s.store.object? path = some object →
      (∀ r ∈ during, r.endsReader name = false) →
      let size := Quantity.clamp object.content.length
      let sizes := during.filterMap (Request.asked? name)
      (s.openRead name path).1 = .ok size ∧
      (s.serve (.openRead name path)).portions name during =
        (cuts object.content sizes).map (fun bytes => some (size, bytes)) ∧
      (cuts object.content sizes).flatten = object.content.take sizes.sum) := by
  intro s a
  have h : Refines a s := (refines_of c).run before
  refine ⟨⟨h.files, fun d hd => Catalog.sameAnswers_of_files (h.files.trans hd.symm)⟩,
    fun r hr => ?_, fun name path during hduring => ?_, fun name path object during hobject hduring => ?_⟩
  · refine Catalog.sameAnswers_of_files ?_
    rw [(h.serve r).files, Atomic.files_serve hr, h.files]
  · intro t written other
    have hopened : (a.serve (.openWrite name path)).drafts name = some (path, []) := by
      rw [Atomic.serve, Atomic.drafts_draft, if_pos rfl]
    have hdraft := Atomic.drafts_run hopened hduring
    have ht : Refines ((a.serve (.openWrite name path)).run during) t := (h.serve _).run during
    rw [(ht.serve _).object?, ht.object?]
    exact Atomic.files_finish hdraft _
  · intro size sizes
    have hview : (a.serve (.openRead name path)).views name = _ :=
      Atomic.views_openRead ((h.object? path).symm.trans hobject)
    refine ⟨?_, (h.serve _).portions hview hduring, flatten_cuts ..⟩
    rw [openRead_eq, hobject]

/-- A file is read, and written anew by two writers at once, one of them while it is read. -/
theorem handles_refine_atomic_map_two_writers :
    let before : List Request := [.put ⟨"a"⟩ [1, 2, 3], .openWrite "v" ⟨"a/."⟩, .append "v" [9]]
    let s := (Session.of .empty).run before
    let reading : List Request := [.readSome "r" 2, .finish "v", .readSome "r" 5, .readSome "r" 1]
    let writing : List Request :=
      [.append "w" [4], .finish "v", .putBlocks ⟨"a"⟩ 7 [], .flush "w", .append "w" [5]]
    (s.serve (.openRead "r" ⟨"a"⟩)).portions "r" reading =
      [some (3, [1, 2]), some (3, [3]), some (3, [])] ∧
    ((s.run (.openWrite "w" ⟨"a/"⟩ :: writing)).serve (.finish "w")).store.object? ⟨"a"⟩ =
      some (.ofContent [4, 5]) := by
  intro before s reading writing
  obtain ⟨-, -, hwrite, hread⟩ := handles_refine_atomic_map .empty before
  have hobject : s.store.object? ⟨"a"⟩ = some (.ofContent [1, 2, 3]) := by rfl
  refine ⟨(hread "r" ⟨"a"⟩ _ reading hobject (by decide)).2.1.trans (by decide), ?_⟩
  exact (hwrite "w" ⟨"a/"⟩ writing (by decide) ⟨"a"⟩).trans (if_pos (by decide +kernel))

end Session

end Apportion
