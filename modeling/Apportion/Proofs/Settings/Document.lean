/-
  Settings are the same after they were written to a document and read from it.

  * `Writable`: settings whose numbers fit a document; `exists_write_eq_ok_iff`: only those have a text.
  * `ofEntries?_sections`: the entries of settings are taken for those settings.
  * `survives_writing`: settings that have a text are read back from it, and the others have none.
-/
import Apportion.Proofs.Toml.Document
import Apportion.Settings.Document

namespace Apportion

open Toml (Literal Section)

namespace Settings

/-- Settings with no number above the largest integer of a document. -/
structure Writable (s : Settings) : Prop where
  bufferSize : s.storage.bufferSize.toNat ≤ Toml.maxInteger
  blockSize : s.storage.blockSize.toNat ≤ Toml.maxInteger
  leastHosts : s.locality.leastHosts.toNat ≤ Toml.maxInteger

/-! ## Sections -/

theorem sound_storageSection (s : StorageSettings) : (storageSection s).Sound := by
  have hkeys : (storageSection s).bindings.map Prod.fst =
      ["base_path", "buffer_size", "block_size", "hosts"] := rfl
  exact .of_keys hkeys (by decide) (by decide) (by decide)

theorem sound_planningSection (s : PlanningSettings) : (planningSection s).Sound := by
  -- the number of workers is only written if there is one
  have hkeys : (planningSection s).bindings.map Prod.fst =
        ["max_workers", "container_extension", "output_dir"] ∨
      (planningSection s).bindings.map Prod.fst = ["container_extension", "output_dir"] := by
    rw [planningSection]
    cases s.maxWorkers with
    | some n => exact Or.inl rfl
    | none => exact Or.inr rfl
  rcases hkeys with hkeys | hkeys
  · exact .of_keys hkeys (by decide) (by decide) (by decide)
  · exact .of_keys hkeys (by decide) (by decide) (by decide)

theorem sound_localitySection (s : LocalitySettings) : (localitySection s).Sound := by
  have hkeys : (localitySection s).bindings.map Prod.fst =
      ["min_location_names", "locality_threshold"] := rfl
  exact .of_keys hkeys (by decide) (by decide) (by decide)

theorem sound_of_mem_sections {s : Settings} : ∀ t ∈ s.sections, t.Sound := by
  rw [sections, List.forall_mem_cons, List.forall_mem_cons, List.forall_mem_singleton]
  exact ⟨sound_storageSection _, sound_planningSection _, sound_localitySection _⟩

theorem fits_storageSection_iff {s : StorageSettings} :
    (∀ b ∈ (storageSection s).bindings, b.2.Fits) ↔
      s.bufferSize.toNat ≤ Toml.maxInteger ∧ s.blockSize.toNat ≤ Toml.maxInteger := by
  simp [storageSection, Literal.Fits]

/-- A number of workers is small. -/
theorem fits_planningSection {s : PlanningSettings} :
    ∀ b ∈ (planningSection s).bindings, b.2.Fits := by
  rw [planningSection]
  cases s.maxWorkers with
  | none => simp [Literal.Fits]
  | some n =>
    have hn : n.toNat ≤ Toml.maxInteger := by
      have := n.toNat_lt
      rw [Toml.maxInteger]
      omega
    simpa [Literal.Fits] using hn

theorem fits_localitySection_iff {s : LocalitySettings} :
    (∀ b ∈ (localitySection s).bindings, b.2.Fits) ↔ s.leastHosts.toNat ≤ Toml.maxInteger := by
  simp [localitySection, Literal.Fits]

/-- Settings have a text iff their numbers fit a document. -/
theorem exists_write_eq_ok_iff {s : Settings} : (∃ text, s.write = .ok text) ↔ s.Writable := by
  rw [write, Toml.exists_writeSections_eq_ok_iff, sections, List.forall_mem_cons,
    List.forall_mem_cons, List.forall_mem_singleton, fits_storageSection_iff,
    fits_localitySection_iff]
  constructor
  · rintro ⟨⟨hbuffer, hblock⟩, -, hhosts⟩
    exact ⟨hbuffer, hblock, hhosts⟩
  · rintro ⟨hbuffer, hblock, hhosts⟩
    exact ⟨⟨hbuffer, hblock⟩, fits_planningSection, hhosts⟩

/-! ## Values -/

theorem natural?_of_le {limit n : Nat} (h : n ≤ limit) : natural? limit (.integer n) = some n := by
  rw [natural?, if_pos ⟨Int.natCast_nonneg n, by exact_mod_cast h⟩, Int.toNat_natCast]

theorem quantity?_toNat (n : UInt64) : quantity? (.integer n.toNat) = some n := by
  have hn := n.toNat_lt
  rw [quantity?, natural?_of_le (by omega), Option.map_some, UInt64.ofNat_toNat]

theorem workers?_toNat (n : UInt32) : workers? (.integer n.toNat) = some n := by
  have hn := n.toNat_lt
  rw [workers?, natural?_of_le (by omega), Option.map_some, UInt32.ofNat_toNat]

theorem texts?_map (ss : List String) : texts? (.array (ss.map .text)) = some ss := by
  rw [texts?]
  induction ss with
  | nil => rfl
  | cons s ss ih =>
    rw [List.map_cons, List.mapM_cons, ih]
    rfl

/-! ## Entries -/

theorem storage?_entry (s : StorageSettings) :
    (fields? (some (storageSection s).entry.2) >>= storage?) = some s := by
  change (do
    return {
      basePath := ← path? (.text s.basePath.text)
      bufferSize := ← quantity? (.integer s.bufferSize.toNat)
      blockSize := ← quantity? (.integer s.blockSize.toNat)
      hosts := ← texts? (.array (s.hosts.map .text)) } : Option StorageSettings) = some s
  rw [quantity?_toNat, quantity?_toNat, texts?_map]
  rfl

theorem planning?_entry (s : PlanningSettings) :
    (fields? (some (planningSection s).entry.2) >>= planning?) = some s := by
  obtain ⟨maxWorkers, containerExtension, outputDirectory⟩ := s
  cases maxWorkers with
  | none => rfl
  | some n =>
    change (do
      return {
        maxWorkers := ← (workers? (.integer n.toNat)).map some
        containerExtension := ← text? (.text containerExtension)
        outputDirectory := ← path? (.text outputDirectory.text) } : Option PlanningSettings) = _
    rw [workers?_toNat]
    rfl

theorem locality?_entry (s : LocalitySettings) :
    (fields? (some (localitySection s).entry.2) >>= locality?) = some s := by
  change (do
    return {
      leastHosts := ← quantity? (.integer s.leastHosts.toNat)
      threshold := ← real? (.real s.threshold) } : Option LocalitySettings) = some s
  rw [quantity?_toNat]
  rfl

/-- The entries of settings are taken for those settings. -/
theorem ofEntries?_sections (s : Settings) : ofEntries? (s.sections.map Section.entry) = some s := by
  change (do
    return {
      storage := ← fields? (some (storageSection s.storage).entry.2) >>= storage?
      planning := ← fields? (some (planningSection s.planning).entry.2) >>= planning?
      locality := ← fields? (some (localitySection s.locality).entry.2) >>= locality? } :
      Option Settings) = some s
  rw [storage?_entry, planning?_entry, locality?_entry]
  rfl

/-! ## Documents -/

/-- **Settings survive a document**: if their numbers fit, they have a text and are what the text is
    read as; if not, they have none. -/
theorem survives_writing (s : Settings) :
    (s.Writable → ∃ text, s.write = .ok text ∧ parse text = .ok s) ∧
      (¬ s.Writable → s.write = .error .outOfRange) := by
  constructor
  · intro h
    obtain ⟨text, htext⟩ := exists_write_eq_ok_iff.2 h
    have hnames : (s.sections.map Section.name).Nodup := by
      change ["storage", "planner", "locality"].Nodup
      decide
    have hparse := Toml.parse?_writeSections sound_of_mem_sections hnames htext
    refine ⟨text, htext, ?_⟩
    rw [parse, hparse, Option.bind_eq_bind, Option.bind_some, ofEntries?_sections]
  · intro h
    cases hwrite : s.write with
    | ok text => exact absurd (exists_write_eq_ok_iff.1 ⟨text, hwrite⟩) h
    | error reason => cases reason; rfl

/-- A path with quotes of both kinds, a backslash and a line end survives a document without hosts,
    and a buffer of one byte more than the largest integer has no text. -/
theorem survives_writing_quotes :
    let s : Settings := { storage := { basePath := ⟨"'''\"\"\"\\\n"⟩, hosts := [] } }
    let t : Settings := { storage := { bufferSize := 0x8000000000000000 } }
    (s.Writable ∧ ∃ text, s.write = .ok text ∧ parse text = .ok s) ∧
      ¬ t.Writable ∧ t.write = .error .outOfRange := by
  intro s t
  have hs : s.Writable := by constructor <;> dsimp only [s] <;> decide
  have ht : ¬ t.Writable := fun h => absurd h.bufferSize (by dsimp only [t]; decide +kernel)
  exact ⟨⟨hs, (survives_writing s).1 hs⟩, ht, (survives_writing t).2 ht⟩

end Settings

end Apportion
