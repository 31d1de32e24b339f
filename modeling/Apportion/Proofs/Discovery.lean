/-
  The references that inputs stand for, in catalogs and on disks.

  * `Discovery.StandsFor`, `Discovery.FailsWith`: what one input stands for, and what it fails with.
  * `references_eq_ok_iff`, `references_eq_error_iff`: what inputs stand for one after the other, and
    the first of them that fails.
  * `Discovers`: what discovery answers on a store, told by its entries and by what it can reach.
  * `Catalog.discovers`, `DiskStore.discovers`: so it does in catalogs and on disks;
    `discovers_reachable`.
-/
import Apportion.Discovery
import Apportion.Proofs.Disk.Reachable
import Apportion.Proofs.Store.Coherence

namespace Apportion

open Sequence

namespace Discovery

variable {σ : Type} [Store σ]

/-! ## One input -/

/-- What an input stands for: a file for itself, and a directory for its entries, joined to it. -/
inductive StandsFor (s : σ) (input : String) : List String → Prop
  | file {stat : Stat} : Store.stat s ⟨input⟩ = .ok stat → stat.isDirectory = false →
      StandsFor s input [input]
  | directory {stat : Stat} {names : List String} : Store.stat s ⟨input⟩ = .ok stat →
      stat.isDirectory = true → Store.list s ⟨input⟩ = .ok names →
      StandsFor s input (names.map fun name => (Path.join ⟨input⟩ ⟨name⟩).text)

/-- What an input fails with: it cannot be looked at, or it is a directory that cannot be listed. -/
inductive FailsWith (s : σ) (input : String) (failure : Failure) : Prop
  | stat : Store.stat s ⟨input⟩ = .error failure → FailsWith s input failure
  | list {stat : Stat} : Store.stat s ⟨input⟩ = .ok stat → stat.isDirectory = true →
      Store.list s ⟨input⟩ = .error failure → FailsWith s input failure

/-- A directory with nothing in it. -/
def IsEmptyDirectory (s : σ) (input : String) : Prop :=
  ∃ stat, Store.stat s ⟨input⟩ = .ok stat ∧ stat.isDirectory = true ∧ Store.list s ⟨input⟩ = .ok []

variable {s : σ} {input reference : String} {inputs refs refs' : List String}
  {parts : List (List String)} {failure : Failure}

theorem expand_eq_ok_iff : expand s input = .ok refs ↔ StandsFor s input refs := by
  rw [expand, bind_eq_ok_iff]
  constructor
  · rintro ⟨stat, hstat, h⟩
    split at h
    · rename_i hdir
      obtain ⟨names, hlist, h⟩ := bind_eq_ok_iff.1 h
      cases h
      exact .directory hstat hdir hlist
    · rename_i hfile
      cases h
      exact .file hstat (Bool.eq_false_iff.2 hfile)
  · intro h
    cases h with
    | file hstat hfile => exact ⟨_, hstat, if_neg (Bool.eq_false_iff.1 hfile)⟩
    | directory hstat hdir hlist =>
      refine ⟨_, hstat, ?_⟩
      rw [if_pos hdir]
      exact bind_eq_ok_iff.2 ⟨_, hlist, rfl⟩

theorem expand_eq_error_iff : expand s input = .error failure ↔ FailsWith s input failure := by
  rw [expand, bind_eq_error_iff]
  constructor
  · rintro (hstat | ⟨stat, hstat, h⟩)
    · exact .stat hstat
    · split at h
      · rename_i hdir
        rcases bind_eq_error_iff.1 h with hlist | ⟨names, -, h⟩
        · exact .list hstat hdir hlist
        · cases h
      · cases h
  · intro h
    cases h with
    | stat hstat => exact Or.inl hstat
    | list hstat hdir hlist =>
      refine Or.inr ⟨_, hstat, ?_⟩
      rw [if_pos hdir]
      exact bind_eq_error_iff.2 (Or.inl hlist)

theorem StandsFor.unique (h : StandsFor s input refs) (h' : StandsFor s input refs') :
    refs = refs' :=
  Except.ok.inj ((expand_eq_ok_iff.2 h).symm.trans (expand_eq_ok_iff.2 h'))

theorem StandsFor.not_failsWith (h : StandsFor s input refs) : ¬ FailsWith s input failure := by
  intro hfails
  have hboth := (expand_eq_ok_iff.2 h).symm.trans (expand_eq_error_iff.2 hfails)
  cases hboth

theorem standsFor_nil_iff : StandsFor s input [] ↔ IsEmptyDirectory s input := by
  constructor
  · intro h
    obtain ⟨names, hnames⟩ : ∃ names : List String, names = [] := ⟨[], rfl⟩
    rw [← hnames] at h
    cases h with
    | file => cases hnames
    | directory hstat hdir hlist =>
      rw [List.map_eq_nil_iff.1 hnames] at hlist
      exact ⟨_, hstat, hdir, hlist⟩
  · rintro ⟨stat, hstat, hdir, hlist⟩
    exact .directory hstat hdir hlist

/-! ## Inputs one after the other -/

theorem mapM_expand_eq_ok_iff :
    inputs.mapM (expand s) = .ok parts ↔ List.Forall₂ (StandsFor s) inputs parts := by
  simp only [mapM_eq_ok_iff, expand_eq_ok_iff]

/-- Nothing is found iff all inputs are empty directories. -/
theorem flatten_eq_nil_iff (h : List.Forall₂ (StandsFor s) inputs parts) :
    parts.flatten = [] ↔ ∀ input ∈ inputs, IsEmptyDirectory s input := by
  rw [List.flatten_eq_nil_iff]
  induction h with
  | nil => exact iff_of_true (List.forall_mem_nil _) (List.forall_mem_nil _)
  | cons hinput _ ih =>
    rw [List.forall_mem_cons, List.forall_mem_cons, ih, ← standsFor_nil_iff]
    refine and_congr_left' ⟨?_, hinput.unique⟩
    rintro rfl
    exact hinput

theorem exists_of_mem_flatten (h : List.Forall₂ (StandsFor s) inputs parts)
    (hmem : reference ∈ parts.flatten) :
    ∃ input ∈ inputs, ∃ part, StandsFor s input part ∧ reference ∈ part := by
  induction h with
  | nil => cases hmem
  | cons hinput _ ih =>
    rcases List.mem_append.1 hmem with hmem | hmem
    · exact ⟨_, List.mem_cons_self, _, hinput, hmem⟩
    · obtain ⟨input, hin, hpart⟩ := ih hmem
      exact ⟨input, List.mem_cons_of_mem _ hin, hpart⟩

/-- **What is found** is what the inputs stand for, one after the other. -/
theorem references_eq_ok_iff : references s inputs = .ok refs ↔
    ∃ parts, List.Forall₂ (StandsFor s) inputs parts ∧ refs = parts.flatten ∧ refs ≠ [] := by
  unfold references
  split
  · rename_i hnone
    rw [List.isEmpty_iff.1 hnone]
    constructor
    · intro h
      cases h
    · rintro ⟨parts, hparts, rfl, hne⟩
      cases hparts
      exact absurd rfl hne
  · rw [bind_eq_ok_iff]
    simp only [mapM_expand_eq_ok_iff]
    constructor
    · rintro ⟨parts, hparts, h⟩
      split at h
      · cases h
      · rename_i hsome
        cases h
        exact ⟨parts, hparts, rfl, mt List.isEmpty_iff.2 hsome⟩
    · rintro ⟨parts, hparts, rfl, hne⟩
      exact ⟨parts, hparts, if_neg (mt List.isEmpty_iff.1 hne)⟩

/-- **The first input that fails** is told of, and that nothing is found only if none fails. -/
theorem references_eq_error_iff : references s inputs = .error failure ↔
    (∃ before input after, inputs = before ++ input :: after ∧
      (∀ earlier ∈ before, ∃ refs, StandsFor s earlier refs) ∧ FailsWith s input failure) ∨
    failure = .noInput ∧ ∀ input ∈ inputs, IsEmptyDirectory s input := by
  unfold references
  split
  · rename_i hnone
    rw [List.isEmpty_iff.1 hnone]
    constructor
    · intro h
      cases h
      exact Or.inr ⟨rfl, List.forall_mem_nil _⟩
    · rintro (⟨before, input, after, h, -⟩ | ⟨rfl, -⟩)
      · simp at h
      · rfl
  · rw [bind_eq_error_iff, mapM_eq_error_iff]
    simp only [mapM_expand_eq_ok_iff, expand_eq_ok_iff, expand_eq_error_iff]
    refine or_congr_right ?_
    constructor
    · rintro ⟨parts, hparts, h⟩
      split at h
      · rename_i hnone
        cases h
        exact ⟨rfl, (flatten_eq_nil_iff hparts).1 (List.isEmpty_iff.1 hnone)⟩
      · cases h
    · rintro ⟨rfl, hempty⟩
      obtain ⟨parts, hparts⟩ := exists_mapM_eq_ok_iff.2 fun input hin =>
        ⟨[], expand_eq_ok_iff.2 (standsFor_nil_iff.2 (hempty input hin))⟩
      rw [mapM_expand_eq_ok_iff] at hparts
      exact ⟨parts, hparts, if_pos (List.isEmpty_iff.2 ((flatten_eq_nil_iff hparts).2 hempty))⟩

theorem exists_references_iff : (∃ refs, references s inputs = .ok refs) ↔
    inputs ≠ [] ∧ (∀ input ∈ inputs, ∃ refs, StandsFor s input refs) ∧
      ¬ ∀ input ∈ inputs, IsEmptyDirectory s input := by
  have hall : (∃ parts, List.Forall₂ (StandsFor s) inputs parts) ↔
      ∀ input ∈ inputs, ∃ refs, StandsFor s input refs := by
    simp only [← mapM_expand_eq_ok_iff, ← expand_eq_ok_iff]
    exact exists_mapM_eq_ok_iff
  simp only [references_eq_ok_iff, ← hall]
  constructor
  · rintro ⟨-, parts, hparts, rfl, hne⟩
    refine ⟨?_, ⟨parts, hparts⟩, mt (flatten_eq_nil_iff hparts).2 hne⟩
    rintro rfl
    cases hparts
    exact hne rfl
  · rintro ⟨-, ⟨parts, hparts⟩, hempty⟩
    exact ⟨_, parts, hparts, rfl, mt (flatten_eq_nil_iff hparts).1 hempty⟩

/-! ## Discovery on a store -/

/-- What discovery answers on a store: `isEntry` tells the entries of its directories, and `inReach`
    the paths that are not too long for it. -/
structure Discovers (s : σ) (inputs : List String) (isEntry : Path → String → Prop)
    (inReach : Path → Prop) : Prop where
  ok_iff : (∃ refs, references s inputs = .ok refs) ↔
    inputs ≠ [] ∧ (∀ input ∈ inputs, ∃ refs, StandsFor s input refs) ∧
      ¬ ∀ input ∈ inputs, IsEmptyDirectory s input
  answer : ∀ refs, references s inputs = .ok refs →
    ∃ parts, List.Forall₂ (StandsFor s) inputs parts ∧ refs = parts.flatten
  contains : ∀ refs, references s inputs = .ok refs → ∀ reference ∈ refs, inReach ⟨reference⟩ →
    Store.contains s ⟨reference⟩ = true
  entries : ∀ path names, Store.list s path = .ok names →
    names.Pairwise (· < ·) ∧ ∀ name, name ∈ names ↔ isEntry path name
  error_iff : ∀ failure, references s inputs = .error failure ↔
    (∃ before input after, inputs = before ++ input :: after ∧
      (∀ earlier ∈ before, ∃ refs, StandsFor s earlier refs) ∧ FailsWith s input failure) ∨
    failure = .noInput ∧ ∀ input ∈ inputs, IsEmptyDirectory s input
  noInput : references s inputs = .error .noInput →
    ∀ input ∈ inputs, ∀ failure, ¬ FailsWith s input failure

/-- A store discovers if what its inputs stand for is there, and they never fail for want of input. -/
theorem discovers_of {isEntry : Path → String → Prop} {inReach : Path → Prop}
    (hentries : ∀ path names, Store.list s path = .ok names →
      names.Pairwise (· < ·) ∧ ∀ name, name ∈ names ↔ isEntry path name)
    (hcontains : ∀ input refs, StandsFor s input refs → ∀ reference ∈ refs, inReach ⟨reference⟩ →
      Store.contains s ⟨reference⟩ = true)
    (hnoInput : ∀ input, ¬ FailsWith s input .noInput) (inputs : List String) :
    Discovers s inputs isEntry inReach where
  ok_iff := exists_references_iff
  answer refs h := by
    obtain ⟨parts, hparts, hrefs, -⟩ := references_eq_ok_iff.1 h
    exact ⟨parts, hparts, hrefs⟩
  contains refs h reference hmem hreach := by
    obtain ⟨parts, hparts, rfl, -⟩ := references_eq_ok_iff.1 h
    obtain ⟨input, -, part, hinput, hmem⟩ := exists_of_mem_flatten hparts hmem
    exact hcontains input part hinput reference hmem hreach
  entries := hentries
  error_iff _ := references_eq_error_iff
  noInput h input hin failure := by
    rcases references_eq_error_iff.1 h with ⟨_, failing, _, -, -, hfails⟩ | ⟨-, hempty⟩
    · exact absurd hfails (hnoInput failing)
    · exact (standsFor_nil_iff.2 (hempty input hin)).not_failsWith

end Discovery

/-! ## Catalogs -/

namespace Catalog

open Discovery

variable {c : Catalog} {path : Path}

/-- A name that leads on from a path to a file. -/
def HasEntry (c : Catalog) (path : Path) (name : String) : Prop :=
  ∃ first, c.Leads path first ∧ name = first.text

theorem stat_ne_noInput : Store.stat c path ≠ .error .noInput := by
  change c.stat path ≠ _
  unfold stat
  split
  · exact fun h => by cases h
  · split <;> exact fun h => by cases h

theorem list_ne_noInput : Store.list c path ≠ .error .noInput := by
  change c.list path ≠ _
  unfold list
  split
  · exact fun h => by cases h
  · split <;> exact fun h => by cases h

theorem Spelled.discovers (h : c.Spelled) (inputs : List String) :
    Discovers c inputs c.HasEntry fun _ => True := by
  refine discovers_of (fun path names hlist => ?_) (fun input refs hinput reference hmem _ => ?_)
    (fun input hfails => ?_) inputs
  · have hcoherent := h.coherent path
    exact ⟨hcoherent.sorted names hlist, hcoherent.mem_iff names hlist⟩
  · have hcoherent := h.coherent ⟨input⟩
    cases hinput with
    | file hstat =>
      rw [List.mem_singleton.1 hmem]
      exact hcoherent.contains_iff.2 ⟨_, hstat⟩
    | directory _ _ hlist =>
      obtain ⟨name, hname, rfl⟩ := List.mem_map.1 hmem
      exact hcoherent.contains_join _ hlist name hname
  · cases hfails with
    | stat hstat => exact stat_ne_noInput hstat
    | list _ _ hlist => exact list_ne_noInput hlist

end Catalog

/-! ## Disks -/

namespace DiskStore

open Discovery Disk

variable {s : DiskStore} {path : Path}

/-- The name of something that lies in the directory at a path. -/
def HasEntry (s : DiskStore) (path : Path) (name : String) : Prop :=
  ∃ loc, s.disk.locate (s.full path) = .ok (loc, .directory) ∧ (s.disk.find? (name :: loc)).isSome

theorem exists_locate_of_stat {stat : Stat} (h : Store.stat s path = .ok stat) :
    ∃ found, s.disk.locate (s.full path) = .ok found := by
  change s.stat path = _ at h
  unfold DiskStore.stat at h
  split at h
  · cases h
  · exact ⟨_, ‹_›⟩
  · exact ⟨_, ‹_›⟩

theorem ofSystem_ne_noInput (path : Path) (problem : String) (error : SystemError) :
    Failure.ofSystem path problem error ≠ .noInput := by
  unfold Failure.ofSystem
  split <;> exact fun h => by cases h

theorem stat_ne_noInput : Store.stat s path ≠ .error .noInput := by
  change s.stat path ≠ _
  unfold stat
  split
  · exact fun h => ofSystem_ne_noInput _ _ _ (Except.error.inj h)
  · exact fun h => by cases h
  · exact fun h => by cases h

theorem list_ne_noInput : Store.list s path ≠ .error .noInput := by
  change s.list path ≠ _
  unfold list
  split <;> exact fun h => by cases h

theorem discovers (h : s.disk.Named) (inputs : List String) :
    Discovers s inputs s.HasEntry fun path => (s.full path).text.utf8ByteSize ≤ maxPath := by
  refine discovers_of (fun path names hlist => ?_)
    (fun input refs hinput reference hmem hreach => ?_) (fun input hfails => ?_) inputs
  · obtain ⟨loc, hlocate, rfl⟩ := list_eq_ok_iff.1 hlist
    refine ⟨Store.rising_sortNames _, fun name => ?_⟩
    rw [Store.mem_sortNames, mem_names_iff]
    constructor
    · exact fun hname => ⟨loc, hlocate, hname⟩
    · rintro ⟨loc', hlocate', hname⟩
      cases hlocate.symm.trans hlocate'
      exact hname
  · cases hinput with
    | file hstat =>
      rw [List.mem_singleton.1 hmem]
      exact contains_iff.2 (exists_locate_of_stat hstat)
    | directory _ _ hlist =>
      obtain ⟨loc, hlocate, rfl⟩ := list_eq_ok_iff.1 hlist
      obtain ⟨name, hname, rfl⟩ := List.mem_map.1 hmem
      rw [Store.mem_sortNames, mem_names_iff] at hname
      -- joining to the input and then below the base directory is joining to what the input leads to
      have hfull : s.full (Path.join ⟨input⟩ ⟨name⟩) = (s.full ⟨input⟩).join ⟨name⟩ :=
        Path.join_join s.base (h name loc hname).entry.isPlain.not_isAbsolute
      change s.disk.contains (s.full (Path.join ⟨input⟩ ⟨name⟩)) = true
      rw [hfull] at hreach ⊢
      exact h.contains_entry hlocate hname hreach
  · cases hfails with
    | stat hstat => exact stat_ne_noInput hstat
    | list _ _ hlist => exact list_ne_noInput hlist

end DiskStore

namespace Discovery

/-- **Discovery in catalogs and on disks.**  After any requests to a catalog, and on any disk that
    requests make, whatever the settings of the store on it: discovery succeeds exactly if there are
    inputs, all of them can be looked at, the directories among them can be listed, and not all are
    empty directories.  It answers what they stand for, one after the other: files for themselves,
    and directories for their entries, by rising name and each once; and all of these are there, but
    for paths that are too long for a disk.  Otherwise it fails with the failure of the first input
    that fails, or for want of input if none does. -/
theorem discovers_reachable (requests : List Session.Request) {s : DiskStore}
    (hs : s.disk.Reachable) (inputs : List String) :
    Discovers ((Session.of .empty).run requests).store inputs
        ((Session.of .empty).run requests).store.HasEntry (fun _ => True) ∧
      Discovers s inputs s.HasEntry fun path => (s.full path).text.utf8ByteSize ≤ Disk.maxPath :=
  ⟨(Catalog.spelled_of_run requests).discovers inputs, DiskStore.discovers hs.named inputs⟩

/-- A file below a file and slashes at the end, in a catalog; and on a disk a directory with a file
    and an empty directory in it, and an input that is missing behind it. -/
theorem discovers_reachable_nested :
    let requests : List Session.Request :=
      [.put ⟨"in/b"⟩ [], .put ⟨"in/a/x"⟩ [], .put ⟨"in/b/y"⟩ []]
    let c := ((Session.of Catalog.empty).run requests).store
    let made := DiskStore.on { basePath := ⟨"data"⟩ }
      (DiskStore.create { basePath := ⟨"data"⟩ } .empty).2
    let s := (DiskStore.run (.of (made.makeDirectories ⟨"in/none"⟩).2)
      [.openWrite "w" ⟨"in/b"⟩, .append "w" [7], .finish "w"]).store
    references c ["in/b", "in//"] = .ok ["in/b", "in//a", "in//b"] ∧
      Store.contains c ⟨"in//b"⟩ = true ∧ s.disk.Reachable ∧
      references s ["in"] = .ok ["in/b", "in/none"] ∧ Store.contains s ⟨"in/none"⟩ = true ∧
      references s ["in", "gone"] = .error (.notFound ⟨"data/gone"⟩) := by
  intro requests c made s
  have hs : s.disk.Reachable := by
    refine DiskStore.reachable_run (DiskStore.reachable_makeDirectories ?_ _) _
    exact DiskStore.reachable_create _ .empty
  have hc : Discovers c ["in/b", "in//"] c.HasEntry fun _ => True :=
    (discovers_reachable requests hs _).1
  have hd := fun inputs => (discovers_reachable requests hs inputs).2
  -- what is at the paths
  have hfile : Store.stat c ⟨"in/b"⟩ = .ok ⟨0, false, false⟩ := by decide +kernel
  have hbelow : Store.stat c ⟨"in//"⟩ = .ok ⟨0, true, false⟩ := by decide +kernel
  have hobject : (c.object? ⟨"in//"⟩).isSome = false := by decide +kernel
  have hnames : c.names ⟨"in//"⟩ = ["b", "a", "b"] := by decide +kernel
  have hin : Store.stat s ⟨"in"⟩ = .ok ⟨4096, true, true⟩ := by decide +kernel
  have hlocate : s.disk.locate (s.full ⟨"in"⟩) = .ok (["in", "data"], .directory) := by
    decide +kernel
  have hentries : s.disk.names ["in", "data"] = ["none", "b"] := by decide +kernel
  have hgone : Store.stat s ⟨"gone"⟩ = .error (.notFound ⟨"data/gone"⟩) := by decide +kernel
  have hreach : (s.full ⟨"in/none"⟩).text.utf8ByteSize ≤ Disk.maxPath := by decide +kernel
  clear_value c s
  have hlist : Store.list c ⟨"in//"⟩ = .ok ["a", "b"] := by
    have hsorted : Store.sortNames ["b", "a", "b"] = ["a", "b"] :=
      Store.sortNames_eq (by decide) fun name => by grind
    change c.list _ = _
    rw [Catalog.list_eq, hobject, if_neg Bool.false_ne_true, hnames, if_neg (List.cons_ne_nil _ _),
      hsorted]
  have hlist' : Store.list s ⟨"in"⟩ = .ok ["b", "none"] := by
    refine DiskStore.list_eq_ok_iff.2 ⟨_, hlocate, ?_⟩
    rw [hentries]
    exact (Store.sortNames_eq (by decide) fun name => List.Perm.mem_iff (by decide)).symm
  have hstands : StandsFor s "in" _ := .directory hin rfl hlist'
  have hfound : references c ["in/b", "in//"] = .ok ["in/b", "in//a", "in//b"] :=
    references_eq_ok_iff.2 ⟨_, .cons (.file hfile rfl) (.cons (.directory hbelow rfl hlist) .nil),
      by decide +kernel, by decide⟩
  have hfound' : references s ["in"] = .ok ["in/b", "in/none"] :=
    references_eq_ok_iff.2 ⟨_, .cons hstands .nil, by decide +kernel, by decide⟩
  refine ⟨hfound, hc.contains _ hfound "in//b" (by simp) trivial, hs, hfound',
    (hd _).contains _ hfound' "in/none" (by simp) hreach, ?_⟩
  refine ((hd _).error_iff _).2 (Or.inl ⟨["in"], "gone", [], rfl, ?_, .stat hgone⟩)
  exact List.forall_mem_singleton.2 ⟨_, hstands⟩

end Discovery

end Apportion
