/-
  What is at a path, and the answers that follow from it.

  * `Store.Answers s path k? names`: a store answers as if `k?` were at the path, with those names
    in it if it is a directory.
  * `DiskStore.answers_of_locate`: on a disk this is what the path leads to.
  * `Catalog.kind?`, `HoldsContent.answers`: in a catalog it is the file kept under the components of the
    path, or else a directory if they are the first ones of some file.
  * `agree_of_answers`: stores with the same at every plain path agree.
-/
import Apportion.Proofs.Disk.Walk
import Apportion.Proofs.Store.Agreement
import Apportion.Proofs.Store.Faithful
import Apportion.Disk.Store
import Apportion.Split.Basic

namespace Apportion

/-- The bytes of a file. -/
def Tree.Kind.content? : Tree.Kind → Option Octets
  | .file content => some content
  | .directory => none

/-! ## Names in order -/

namespace Store

theorem mem_sortNames {name : String} {names : List String} :
    name ∈ sortNames names ↔ name ∈ names := by
  rw [sortNames, List.mem_mergeSort, List.mem_eraseDups]

theorem nodup_sortNames (names : List String) : (sortNames names).Nodup :=
  (List.mergeSort_perm _ _).nodup_iff.2 (Split.nodup_eraseDups names)

theorem pairwise_sortNames (names : List String) : (sortNames names).Pairwise (· ≤ ·) := by
  have h : (sortNames names).Pairwise fun a b => decide (a ≤ b) = true := by
    refine List.pairwise_mergeSort (fun a b c hab hbc => ?_) (fun a b => ?_) _
    · rw [decide_eq_true_iff] at hab hbc ⊢
      exact String.le_trans hab hbc
    · rw [Bool.or_eq_true, decide_eq_true_iff, decide_eq_true_iff]
      exact String.le_total ..
  exact h.imp of_decide_eq_true

/-- Sorted names rise strictly. -/
theorem rising_sortNames (names : List String) : (sortNames names).Pairwise (· < ·) := by
  refine ((pairwise_sortNames names).and (nodup_sortNames names)).imp fun h => ?_
  exact String.not_le.1 fun hge => h.2 (String.le_antisymm h.1 hge)

/-- Sorted names depend on nothing but which names there are. -/
theorem sortNames_congr {names names' : List String} (h : ∀ name, name ∈ names ↔ name ∈ names') :
    sortNames names = sortNames names' := by
  refine List.Perm.eq_of_pairwise (fun _ _ _ _ => String.le_antisymm) (pairwise_sortNames names)
    (pairwise_sortNames names') ?_
  rw [List.perm_ext_iff_of_nodup (nodup_sortNames names) (nodup_sortNames names')]
  intro name
  rw [mem_sortNames, mem_sortNames, h]

/-- Names that are listed in order, each once, are their own listing. -/
theorem sortNames_eq {names sorted : List String} (hsorted : sorted.Pairwise (· < ·))
    (h : ∀ name, name ∈ names ↔ name ∈ sorted) : sortNames names = sorted := by
  have hdistinct : sorted.Nodup := hsorted.imp fun hlt => String.ne_of_lt hlt
  have hordered : sorted.Pairwise (· ≤ ·) := hsorted.imp fun hlt => String.lt_asymm hlt
  refine List.Perm.eq_of_pairwise (fun _ _ _ _ => String.le_antisymm) (pairwise_sortNames names)
    hordered ?_
  rw [List.perm_ext_iff_of_nodup (nodup_sortNames names) hdistinct]
  intro name
  rw [mem_sortNames, h]

/-! ## Answers -/

variable {σ τ : Type} [Store σ] [Store τ] {s : σ} {t : τ}

/-- The requests for a path are answered as if `k?` were there; a directory has entries with the
    names given. -/
structure Answers (s : σ) (path : Path) (k? : Option Tree.Kind) (names : List String) : Prop where
  contains : contains s path = k?.isSome
  stat : (stat s path).toOption.map Stat.fileSize? =
    k?.map fun k => k.content?.map fun content => Quantity.clamp content.length
  list : (list s path).toOption = if k? = some .directory then some (sortNames names) else none
  read : (readSized s path).toOption =
    k?.bind fun k => k.content?.map fun content => (Quantity.clamp content.length, content)

theorem agree_of_answers (h : ∀ path : Path, path.IsPlain → ∃ k? names names',
    Answers s path k? names ∧ Answers t path k? names' ∧ ∀ name, name ∈ names ↔ name ∈ names') :
    Agree s t where
  contains path hpath := by
    obtain ⟨k?, names, names', hs, ht, -⟩ := h path hpath
    rw [hs.contains, ht.contains]
  stat path hpath := by
    obtain ⟨k?, names, names', hs, ht, -⟩ := h path hpath
    rw [hs.stat, ht.stat]
  list path hpath := by
    obtain ⟨k?, names, names', hs, ht, hnames⟩ := h path hpath
    rw [hs.list, ht.list, sortNames_congr hnames]
  read path hpath := by
    obtain ⟨k?, names, names', hs, ht, -⟩ := h path hpath
    rw [hs.read, ht.read]

end Store

/-! ## On a disk -/

namespace DiskStore

variable (s : DiskStore) (path : Path)

theorem contains_eq : Store.contains s path = (s.disk.locate (s.full path)).toOption.isSome := by
  change s.disk.contains (s.full path) = _
  unfold Disk.contains
  cases s.disk.locate (s.full path) <;> rfl

theorem toOption_stat : (s.stat path).toOption.map Stat.fileSize? =
    (s.disk.locate (s.full path)).toOption.map fun found =>
      found.2.content?.map fun content => Quantity.clamp content.length := by
  unfold stat
  cases s.disk.locate (s.full path) with
  | error error => rfl
  | ok found =>
    obtain ⟨loc, k⟩ := found
    cases k <;> rfl

theorem toOption_list : (s.list path).toOption =
    (s.disk.locate (s.full path)).toOption.bind fun found =>
      if found.2 = .directory then some (Store.sortNames (s.disk.names found.1)) else none := by
  unfold list
  cases s.disk.locate (s.full path) with
  | error error => rfl
  | ok found =>
    obtain ⟨loc, k⟩ := found
    cases k <;> rfl

theorem toOption_readSized : (Store.readSized s path).toOption =
    (s.disk.locate (s.full path)).toOption.bind fun found =>
      found.2.content?.map fun content => (Quantity.clamp content.length, content) := by
  change (s.openRead path >>= fun reader => .ok (reader.size, s.readRest reader)).toOption = _
  unfold openRead
  cases hlocate : s.disk.locate (s.full path) with
  | error error => rfl
  | ok found =>
    obtain ⟨loc, k⟩ := found
    cases k with
    | directory => rfl
    | file content =>
      have hcontent : s.disk.contentAt loc = content := by
        rw [Disk.contentAt, (Disk.locate_eq_ok_iff.1 hlocate).2.2.1]
      change some (_, s.readRest _) = some _
      rw [readRest, hcontent, List.nil_append, List.drop_zero]

variable {s path}

theorem list_eq_ok_iff {names : List String} : Store.list s path = .ok names ↔
    ∃ loc, s.disk.locate (s.full path) = .ok (loc, .directory) ∧
      names = Store.sortNames (s.disk.names loc) := by
  change s.list path = _ ↔ _
  unfold list
  cases s.disk.locate (s.full path) with
  | error error => simp
  | ok found =>
    obtain ⟨loc, k⟩ := found
    cases k <;> simp [eq_comm]

/-- **What a disk answers** for a path is told by where the path leads. -/
theorem answers_of_locate {k? : Option Tree.Kind} {loc : Location}
    (h : (s.disk.locate (s.full path)).toOption = k?.map fun k => (loc, k)) :
    Store.Answers s path k? (s.disk.names loc) where
  contains := by rw [contains_eq, h, Option.isSome_map]
  stat := by
    change (s.stat path).toOption.map _ = _
    rw [toOption_stat, h, Option.map_map]
    rfl
  list := by
    change (s.list path).toOption = _
    rw [toOption_list, h]
    rcases k? with _ | _ | _ <;> rfl
  read := by
    rw [toOption_readSized, h]
    cases k? <;> rfl

end DiskStore

/-! ## In a catalog -/

namespace Catalog

variable {c : Catalog} {path : Path} {content : Octets} {key steps : List Path.Component}

/-- What is at components: the file kept there, or a directory that a file lies below. -/
def kind? (c : Catalog) (key : List Path.Component) : Option Tree.Kind :=
  match c.objects.get? key with
  | some object => some (.file object.content)
  | none => if ∃ more ∈ c.objects.keys, key <+: more then some .directory else none

theorem isSome_kind?_iff : (c.kind? key).isSome ↔ ∃ more ∈ c.objects.keys, key <+: more := by
  unfold kind?
  cases hkey : c.objects.get? key with
  | none => simp
  | some object =>
    have hmem : key ∈ c.objects.keys := Keyed.isSome_get?_iff.1 (by rw [hkey]; rfl)
    exact iff_of_true rfl ⟨key, hmem, List.prefix_rfl⟩

theorem mem_keys_put : key ∈ (c.put path content).objects.keys ↔
    key ∈ c.objects.keys ∨ key = path.components := by
  rw [put, Keyed.keys_put]
  split
  · rename_i hold
    exact ⟨Or.inl, fun h => h.elim id fun e => e ▸ hold⟩
  · rw [List.mem_append, List.mem_singleton]

theorem exists_keys_put : (∃ more ∈ (c.put path content).objects.keys, key <+: more) ↔
    (∃ more ∈ c.objects.keys, key <+: more) ∨ key <+: path.components := by
  simp only [mem_keys_put, or_and_right, exists_or, exists_eq_left]

theorem isSome_kind?_put : ((c.put path content).kind? key).isSome ↔
    (c.kind? key).isSome ∨ key <+: path.components := by
  rw [isSome_kind?_iff, isSome_kind?_iff, exists_keys_put]

/-- What is where after content was put at a path: the file there, what was elsewhere, and
    directories that the file lies below. -/
theorem kind?_put : (c.put path content).kind? key =
    if key = path.components then some (.file content)
    else (c.kind? key).or (if key <+: path.components then some .directory else none) := by
  have hget : (c.put path content).objects.get? key =
      if key = path.components then some (.ofContent content) else c.objects.get? key :=
    Keyed.get?_put ..
  unfold kind?
  rw [hget]
  by_cases hkey : key = path.components
  · rw [if_pos hkey, if_pos hkey]
    rfl
  · rw [if_neg hkey, if_neg hkey]
    cases c.objects.get? key with
    | some object => rfl
    | none =>
      simp only [exists_keys_put]
      by_cases habove : ∃ more ∈ c.objects.keys, key <+: more
      · simp only [habove, true_or, if_true, Option.some_or]
      · simp only [habove, false_or, if_false, Option.none_or]

/-- All files are kept with their content, under the components of plain paths. -/
def HoldsContent (c : Catalog) : Prop :=
  ∀ key object, c.objects.get? key = some object →
    object = .ofContent object.content ∧ ∃ path : Path, path.IsPlain ∧ path.components = key

theorem HoldsContent.put (h : c.HoldsContent) (hpath : path.IsPlain) :
    (c.put path content).HoldsContent := by
  intro key object hobject
  rw [Catalog.put, Keyed.get?_put] at hobject
  split at hobject
  · rename_i hkey
    cases hobject
    exact ⟨rfl, path, hpath, hkey.symm⟩
  · exact h key object hobject

theorem mem_below : steps ∈ c.below path ↔
    steps ≠ [] ∧ path.components ++ steps ∈ c.objects.keys := by
  simp only [below, List.mem_map, List.mem_filter, Bool.and_eq_true, decide_eq_true_eq,
    List.isPrefixOf_iff_prefix]
  constructor
  · rintro ⟨key, ⟨hmem, ⟨more, rfl⟩, hne⟩, rfl⟩
    rw [List.drop_left]
    refine ⟨?_, hmem⟩
    rintro rfl
    exact hne (List.append_nil _)
  · rintro ⟨hne, hmem⟩
    refine ⟨path.components ++ steps, ⟨hmem, List.prefix_append .., fun e => hne ?_⟩,
      List.drop_left ..⟩
    exact List.append_right_eq_self.1 e

/-- The first steps from a path down to the files below it. -/
def names (c : Catalog) (path : Path) : List String :=
  (c.below path).filterMap fun steps => steps.head?.map Path.Component.text

theorem names_eq_nil_iff : c.names path = [] ↔ c.below path = [] := by
  rw [names, List.filterMap_eq_nil_iff]
  constructor
  · intro h
    rw [List.eq_nil_iff_forall_not_mem]
    intro steps hsteps
    obtain ⟨first, more, rfl⟩ := List.exists_cons_of_ne_nil (mem_below.1 hsteps).1
    cases h _ hsteps
  · intro h
    rw [h]
    simp

/-- The names in a directory are those that lead on to something. -/
theorem mem_names_iff (h : c.HoldsContent) {name : String} :
    name ∈ c.names path ↔ (c.kind? (path.components ++ [.entry name])).isSome := by
  rw [isSome_kind?_iff, names, List.mem_filterMap]
  constructor
  · rintro ⟨steps, hsteps, hname⟩
    obtain ⟨hne, hmem⟩ := mem_below.1 hsteps
    obtain ⟨first, more, rfl⟩ := List.exists_cons_of_ne_nil hne
    -- a step to something kept under a plain path is one to an entry
    obtain ⟨object, hobject⟩ := Option.isSome_iff_exists.1 (Keyed.isSome_get?_iff.2 hmem)
    obtain ⟨-, kept, hkept, heq⟩ := h _ _ hobject
    have hfirst : first ∈ kept.names.map Path.Component.entry := by
      rw [← hkept.components_eq, heq]
      simp
    obtain ⟨name', -, rfl⟩ := List.mem_map.1 hfirst
    cases hname
    exact ⟨_, hmem, ⟨more, by simp [Path.Component.text]⟩⟩
  · rintro ⟨key, hmem, more, rfl⟩
    refine ⟨.entry name :: more, mem_below.2 ⟨List.cons_ne_nil _ _, ?_⟩, rfl⟩
    rwa [List.append_assoc] at hmem

theorem isDirectory_iff (h : c.object? path = none) :
    c.isDirectory path ↔ ∃ more ∈ c.objects.keys, path.components <+: more := by
  rw [isDirectory, Bool.not_eq_true', List.isEmpty_eq_false_iff_exists_mem]
  constructor
  · rintro ⟨steps, hsteps⟩
    exact ⟨_, (mem_below.1 hsteps).2, List.prefix_append ..⟩
  · rintro ⟨-, hmem, steps, rfl⟩
    refine ⟨steps, mem_below.2 ⟨?_, hmem⟩⟩
    rintro rfl
    rw [List.append_nil] at hmem
    exact Keyed.get?_eq_none_iff.1 h hmem

theorem kind?_components : c.kind? path.components =
    match c.object? path with
    | some object => some (.file object.content)
    | none => if c.isDirectory path then some .directory else none := by
  unfold kind?
  cases hobject : c.objects.get? path.components with
  | some object => simp only [object?, hobject]
  | none =>
    have hnone : c.object? path = none := hobject
    simp only [hnone, isDirectory_iff hnone]

section
variable (c path)

theorem contains_eq : Store.contains c path = (c.kind? path.components).isSome := by
  change ((c.object? path).isSome || c.isDirectory path) = _
  rw [kind?_components]
  cases c.object? path with
  | some object => rfl
  | none => cases c.isDirectory path <;> rfl

theorem toOption_list : (c.list path).toOption =
    if c.kind? path.components = some .directory then some (Store.sortNames (c.names path))
    else none := by
  have hnames : c.isDirectory path = !(c.names path).isEmpty := by
    rw [isDirectory, Bool.not_inj_iff, Bool.eq_iff_iff, List.isEmpty_iff, List.isEmpty_iff,
      names_eq_nil_iff]
  rw [kind?_components, hnames]
  unfold list names
  cases c.object? path with
  | some object => rfl
  | none => cases (c.below path).filterMap _ <;> rfl

theorem toOption_readSized : (Store.readSized c path).toOption =
    (c.kind? path.components).bind fun k =>
      k.content?.map fun content => (Quantity.clamp content.length, content) := by
  change (c.openRead path >>= fun reader => .ok (reader.size, reader.rest)).toOption = _
  rw [kind?_components]
  unfold openRead
  cases c.object? path with
  | some object => rfl
  | none => cases c.isDirectory path <;> rfl

end

/-- A file that is kept with its content has the size of it. -/
theorem HoldsContent.toOption_stat (h : c.HoldsContent) (path : Path) :
    (c.stat path).toOption.map Stat.fileSize? = (c.kind? path.components).map fun k =>
      k.content?.map fun content => Quantity.clamp content.length := by
  rw [kind?_components]
  unfold stat
  cases hobject : c.object? path with
  | some object =>
    obtain ⟨hsize, -⟩ := h _ _ hobject
    rw [hsize]
    rfl
  | none => cases c.isDirectory path <;> rfl

/-- **What a catalog answers** for a path is told by what is kept at and below it. -/
theorem HoldsContent.answers (h : c.HoldsContent) (path : Path) :
    Store.Answers c path (c.kind? path.components) (c.names path) where
  contains := contains_eq c path
  stat := h.toOption_stat path
  list := toOption_list c path
  read := toOption_readSized c path

end Catalog

end Apportion
