/-
  Directories that are there because files lie below them.

  * `Catalog.Stores c path`: a file is kept at the path; `Catalog.Leads c path first`: one is kept
    strictly below it, by way of the component `first`.
  * `Catalog.Spelled`: files are kept under the components of paths; `Atomic.Spelled.serve`,
    `Catalog.spelled_of_run`: requests keep it so.
  * `Catalog.Shown`: the three ways in which a path can be answered for, `Spelled.shown`.
  * `Catalog.Coherent`: all requests about a path agree on what it is, and a listing leads on;
    `coherent_of_run`.
-/
import Apportion.Proofs.Path.Components
import Apportion.Proofs.Session

namespace Apportion

namespace Catalog

variable {c : Catalog} {path : Path} {first : Path.Component} {name : String}

/-- A file is kept at a path, however the path is spelled. -/
def Stores (c : Catalog) (path : Path) : Prop := path.components ∈ c.objects.keys

/-- A file is kept strictly below a path, and `first` is the next component on the way to it. -/
def Leads (c : Catalog) (path : Path) (first : Path.Component) : Prop :=
  ∃ q, c.Stores q ∧ path.Follows q first

/-- All files are kept under the components of paths. -/
def Spelled (c : Catalog) : Prop := ∀ key ∈ c.objects.keys, ∃ q : Path, q.components = key

theorem isSome_object?_iff : (c.object? path).isSome ↔ c.Stores path := Keyed.isSome_get?_iff

/-- The first step on the way to a file below leads to it, and may be taken from any spelling. -/
theorem Leads.contains_join (h : c.Leads path first) :
    Store.contains c (path.join ⟨first.text⟩) = true := by
  obtain ⟨q, hq, hfollows⟩ := h
  have ⟨more, hmore⟩ := hfollows
  rw [contains_eq, isSome_kind?_iff, hfollows.components_join]
  exact ⟨q.components, hq, more, by rw [hmore, List.append_assoc, List.singleton_append]⟩

namespace Spelled

theorem leads_iff (h : c.Spelled) :
    c.Leads path first ↔ ∃ more, path.components ++ first :: more ∈ c.objects.keys := by
  constructor
  · rintro ⟨q, hq, more, hmore⟩
    exact ⟨more, hmore ▸ hq⟩
  · rintro ⟨more, hmem⟩
    obtain ⟨q, hq⟩ := h _ hmem
    exact ⟨q, by rwa [Stores, hq], more, hq⟩

theorem mem_names_iff_leads (h : c.Spelled) :
    name ∈ c.names path ↔ ∃ first, c.Leads path first ∧ name = first.text := by
  rw [names, List.mem_filterMap]
  constructor
  · rintro ⟨steps, hsteps, hname⟩
    obtain ⟨hne, hmem⟩ := mem_below.1 hsteps
    obtain ⟨first, more, rfl⟩ := List.exists_cons_of_ne_nil hne
    exact ⟨first, h.leads_iff.2 ⟨more, hmem⟩, (Option.some.inj hname).symm⟩
  · rintro ⟨first, hleads, rfl⟩
    obtain ⟨more, hmem⟩ := h.leads_iff.1 hleads
    exact ⟨first :: more, mem_below.2 ⟨List.cons_ne_nil _ _, hmem⟩, rfl⟩

theorem names_ne_nil_iff (h : c.Spelled) : c.names path ≠ [] ↔ ∃ first, c.Leads path first := by
  constructor
  · intro hne
    obtain ⟨name, hname⟩ := List.exists_mem_of_ne_nil _ hne
    exact (h.mem_names_iff_leads.1 hname).imp fun first => And.left
  · rintro ⟨first, hleads⟩
    exact List.ne_nil_of_mem (h.mem_names_iff_leads.2 ⟨first, hleads, rfl⟩)

theorem isDirectory_iff_leads (h : c.Spelled) :
    c.isDirectory path ↔ ∃ first, c.Leads path first := by
  rw [← h.names_ne_nil_iff, Ne, names_eq_nil_iff, isDirectory, Bool.not_eq_true',
    ← List.isEmpty_iff, Bool.not_eq_true]

end Spelled

/-! ## What a path is -/

/-- What is answered for a path: that it is a file, a directory or nothing at all. -/
inductive Shown (c : Catalog) (path : Path) : Prop
  | file (size : UInt64) : c.Stores path → Store.contains c path = true →
      Store.stat c path = .ok ⟨size, false, false⟩ →
      Store.list c path = .error (.storage path "path is not a directory" none) → Shown c path
  | directory : ¬ c.Stores path → (∃ first, c.Leads path first) → Store.contains c path = true →
      Store.stat c path = .ok ⟨0, true, false⟩ →
      Store.list c path = .ok (Store.sortNames (c.names path)) → Shown c path
  | nothing : ¬ c.Stores path → (¬ ∃ first, c.Leads path first) → Store.contains c path = false →
      Store.stat c path = .error (.notFound path) →
      Store.list c path = .error (.notFound path) → Shown c path

theorem Spelled.shown (h : c.Spelled) (path : Path) : c.Shown path := by
  have hcontains : Store.contains c path = ((c.object? path).isSome || c.isDirectory path) := rfl
  have hstat : Store.stat c path = c.stat path := rfl
  have hlist : Store.list c path = c.list path := rfl
  rw [stat] at hstat
  rw [list_eq] at hlist
  cases hobject : c.object? path with
  | some object =>
    have hstores : c.Stores path := isSome_object?_iff.1 (by rw [hobject]; rfl)
    rw [hobject] at hcontains hstat hlist
    exact .file object.size hstores hcontains hstat hlist
  | none =>
    have hstores : ¬ c.Stores path := fun hs => by
      have hsome := isSome_object?_iff.2 hs
      rw [hobject] at hsome
      cases hsome
    rw [hobject] at hcontains hstat hlist
    by_cases hleads : ∃ first, c.Leads path first
    · have hdirectory : c.isDirectory path = true := h.isDirectory_iff_leads.2 hleads
      rw [hdirectory] at hcontains hstat
      rw [Option.isSome_none, if_neg Bool.false_ne_true, if_neg (h.names_ne_nil_iff.2 hleads)] at hlist
      exact .directory hstores hleads hcontains hstat hlist
    · have hdirectory : c.isDirectory path = false :=
        Bool.eq_false_iff.2 (mt h.isDirectory_iff_leads.1 hleads)
      rw [hdirectory] at hcontains hstat
      rw [Option.isSome_none, if_neg Bool.false_ne_true,
        if_pos (not_not.1 (mt h.names_ne_nil_iff.1 hleads))] at hlist
      exact .nothing hstores hleads hcontains hstat hlist

/-- All requests about a path agree on what it is: a file if one is kept there, or else a directory
    if one is kept below, or else nothing.  What is in a directory is, in order and once each, what
    leads on from it to a file. -/
structure Coherent (c : Catalog) (path : Path) : Prop where
  contains_iff : Store.contains c path = true ↔ ∃ stat, Store.stat c path = .ok stat
  file_iff : (∃ stat, Store.stat c path = .ok stat ∧ stat.isDirectory = false) ↔ c.Stores path
  directory_iff : (∃ stat, Store.stat c path = .ok stat ∧ stat.isDirectory = true) ↔
    ¬ c.Stores path ∧ ∃ first, c.Leads path first
  stat_notFound_iff : Store.stat c path = .error (.notFound path) ↔
    ¬ c.Stores path ∧ ¬ ∃ first, c.Leads path first
  list_iff : (∃ names, Store.list c path = .ok names) ↔
    ∃ stat, Store.stat c path = .ok stat ∧ stat.isDirectory = true
  list_storage_iff : (∃ problem cause, Store.list c path = .error (.storage path problem cause)) ↔
    c.Stores path
  list_notFound_iff : Store.list c path = .error (.notFound path) ↔
    ¬ c.Stores path ∧ ¬ ∃ first, c.Leads path first
  sorted : ∀ names, Store.list c path = .ok names → names.Pairwise (· < ·)
  mem_iff : ∀ names, Store.list c path = .ok names → ∀ name,
    name ∈ names ↔ ∃ first, c.Leads path first ∧ name = first.text
  contains_join : ∀ names, Store.list c path = .ok names → ∀ name ∈ names,
    Store.contains c (path.join ⟨name⟩) = true

theorem Shown.list_eq_ok {names : List String} (h : c.Shown path)
    (hlist : Store.list c path = .ok names) : names = Store.sortNames (c.names path) := by
  cases h with
  | directory _ _ _ _ hok => exact Except.ok.inj (hlist.symm.trans hok)
  | file _ _ _ _ herror | nothing _ _ _ _ herror =>
    rw [herror] at hlist
    cases hlist

theorem Spelled.mem_list (h : c.Spelled) {names : List String}
    (hlist : Store.list c path = .ok names) :
    name ∈ names ↔ ∃ first, c.Leads path first ∧ name = first.text := by
  rw [(h.shown path).list_eq_ok hlist, Store.mem_sortNames, h.mem_names_iff_leads]

theorem Spelled.coherent (h : c.Spelled) (path : Path) : c.Coherent path where
  contains_iff := by cases h.shown path <;> simp [*]
  file_iff := by cases h.shown path <;> simp [*]
  directory_iff := by cases h.shown path <;> simp [*]
  stat_notFound_iff := by cases h.shown path <;> simp [*]
  list_iff := by cases h.shown path <;> simp [*]
  list_storage_iff := by cases h.shown path <;> simp [*]
  list_notFound_iff := by cases h.shown path <;> simp [*]
  sorted names hlist := by
    rw [(h.shown path).list_eq_ok hlist]
    exact Store.rising_sortNames _
  mem_iff _ hlist _ := h.mem_list hlist
  contains_join names hlist name hname := by
    obtain ⟨first, hleads, rfl⟩ := (h.mem_list hlist).1 hname
    exact hleads.contains_join

end Catalog

/-! ## What requests keep -/

namespace Session

namespace Atomic

variable {a : Atomic} {path : Path}

/-- All files are those of paths. -/
def Spelled (a : Atomic) : Prop :=
  ∀ key, (a.files key).isSome → ∃ q : Path, q.components = key

theorem Spelled.of_files_eq {a' : Atomic} {object : Catalog.Object} (h : a.Spelled)
    (hfiles : ∀ key, a'.files key = if key = path.components then some object else a.files key) :
    a'.Spelled := by
  intro key hkey
  rw [hfiles] at hkey
  split at hkey
  · rename_i heq
    exact ⟨path, heq.symm⟩
  · exact h key hkey

/-- **A request keeps files under the components of paths**: it leaves them as they are or replaces
    the one at a path. -/
theorem Spelled.serve (h : a.Spelled) (r : Request) : (a.serve r).Spelled := by
  cases hcompletes : r.completes with
  | false =>
    intro key hkey
    rw [files_serve hcompletes] at hkey
    exact h key hkey
  | true =>
    cases r with
    | put path content => exact h.of_files_eq (files_keep a path _)
    | putBlocks path size blocks => exact h.of_files_eq (files_keep a path _)
    | finish name =>
      cases hdraft : a.drafts name with
      | none =>
        have hsame : a.serve (.finish name) = a := by rw [Atomic.serve, hdraft]
        rw [hsame]
        exact h
      | some draft => exact h.of_files_eq (files_finish hdraft)
    | _ => cases hcompletes

theorem Spelled.run (h : a.Spelled) (requests : List Request) : (a.run requests).Spelled := by
  induction requests generalizing a with
  | nil => exact h
  | cons r requests ih => exact ih (h.serve r)

end Atomic

end Session

namespace Catalog

theorem spelled_of_run (requests : List Session.Request) :
    ((Session.of .empty).run requests).store.Spelled := by
  have hempty : (Session.Atomic.of .empty).Spelled := fun key hkey => by cases hkey
  have hfiles := ((Session.refines_of .empty).run requests).files
  intro key hkey
  rw [← Keyed.isSome_get?_iff, hfiles] at hkey
  exact hempty.run requests key hkey

/-- **Directories without entries of their own are coherent.**  After any requests, for every path:
    there is something at it exactly if it can be looked at; it is a file exactly if it is kept, and a
    directory exactly if it is not, but something is kept strictly below it; it is not found
    otherwise.  Listing succeeds exactly for a directory, complains of a file, and does not find
    anything else; and the names listed rise strictly and are those that follow in paths of files
    strictly below, and each of them leads on to something. -/
theorem coherent_of_run (requests : List Session.Request) (path : Path) :
    ((Session.of .empty).run requests).store.Coherent path :=
  (spelled_of_run requests).coherent path

/-- A file below another one, both under absolute paths, and what is between them. -/
example :
    let c := ((Session.of .empty).run [.put ⟨"/a"⟩ [1], .openWrite "w" ⟨"/a//b/./c"⟩, .finish "w"]).store
    Store.stat c ⟨"/a/"⟩ = .ok ⟨1, false, false⟩ ∧ Store.stat c ⟨"/a/b"⟩ = .ok ⟨0, true, false⟩ ∧
      Store.list c ⟨"/a"⟩ = .error (.storage ⟨"/a"⟩ "path is not a directory" none) ∧
      Store.contains c ((⟨""⟩ : Path).join ⟨"/"⟩) = true := by
  decide +kernel

end Catalog

end Apportion
