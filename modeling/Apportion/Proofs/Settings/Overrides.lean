/-
  Settings and what an environment says of them.

  * `ListsHosts`: the hosts that a text lists; `hostList?_eq_some_iff`.
  * `Environment.Replaces`: what becomes of a value for which a variable may stand; `Overridden`: what
    becomes of settings.
  * `validate_eq_error_iff`: which settings are unfit.
  * `Invocation.Unsettled`: why an invocation has no settings.
  * `under_environment`: which environments make fit settings unfit, what they change, and that nothing
    is done under unfit settings.
-/
import Apportion.Invocation.Outcome
import Apportion.Proofs.Decimal.Numeral
import Apportion.Proofs.Path
import Apportion.Proofs.Sequence
import Apportion.Proofs.Text.Blank
import Mathlib.Tactic.SplitIfs

namespace Apportion

open Sequence

/-! ## Hosts -/

namespace Settings

/-- The hosts that a text lists: what stands between its commas, without the blanks at the ends, as far
    as anything is left. -/
def ListsHosts (text : String) (hosts : List String) : Prop :=
  ∃ pieces trimmed : List (List Char), pieces ≠ [] ∧ (∀ p ∈ pieces, ',' ∉ p) ∧
    [','].intercalate pieces = text.toList ∧ List.Forall₂ Text.Trims pieces trimmed ∧
    hosts = (trimmed.filter (· ≠ [])).map String.ofList

theorem hostList?_eq_some_iff {text : String} {hosts : List String} :
    hostList? text.toList = some hosts ↔ ListsHosts text hosts ∧ hosts ≠ [] := by
  have hlists : ListsHosts text hosts ↔ hosts =
      (((text.toList.splitOn ',').map Text.trim).filter (· ≠ [])).map String.ofList := by
    constructor
    · rintro ⟨pieces, trimmed, hne, hcommas, hjoin, htrims, rfl⟩
      have hpieces : text.toList.splitOn ',' = pieces := by
        rw [← hjoin, List.splitOn_intercalate ',' hcommas hne]
      have htrimmed : pieces.map Text.trim = trimmed :=
        List.forall₂_eq_eq_eq ▸
          List.forall₂_map_left_iff.2 (htrims.imp fun _ _ h => Text.trims_iff.1 h)
      rw [hpieces, htrimmed]
    · rintro rfl
      refine ⟨_, _, List.splitOn_ne_nil ',' text.toList, fun p => Text.notMem_of_mem_splitOn,
        List.intercalate_splitOn ',', ?_, rfl⟩
      exact List.forall₂_map_right_iff.2 (List.forall₂_same.2 fun p _ => Text.trims_iff.2 rfl)
  rw [hlists]
  unfold hostList?
  split
  · rename_i hnone
    rw [hnone]
    exact ⟨nofun, fun ⟨hempty, hne⟩ => absurd hempty hne⟩
  · rename_i kept hsome
    generalize ((text.toList.splitOn ',').map Text.trim).filter (· ≠ []) = kept' at hsome ⊢
    have hne : kept'.map String.ofList ≠ [] := fun h => hsome (List.map_eq_nil_iff.1 h)
    rw [Option.some.injEq, eq_comm (b := hosts), iff_self_and]
    rintro rfl
    exact hne

end Settings

/-! ## Variables -/

namespace Environment

variable {α : Type} {e : Environment} {name : String} {read? : List Char → Option α} {old v : α}

/-- What becomes of a value for which a variable may stand: it is the one that the text of the variable
    tells, if it tells any, and the former one otherwise. -/
structure Replaces (e : Environment) (name : String) (tells : String → α → Prop) (old new : α) :
    Prop where
  told : ∀ text v, e name = some text → tells text v → new = v
  kept : (∀ text v, e name = some text → ¬ tells text v) → new = old

theorem get_of_some {text : String} (htext : e name = some text) (hread : read? text.toList = some v) :
    e.get name read? old = v := by
  rw [get, htext]
  change (read? text.toList).getD old = v
  rw [hread]
  rfl

theorem get_of_none (h : ∀ text v, e name = some text → read? text.toList ≠ some v) :
    e.get name read? old = old := by
  have hnone : ((e name).bind fun text => read? text.toList) = none := by
    rw [Option.bind_eq_none_iff]
    exact fun text htext => Option.eq_none_iff_forall_ne_some.2 fun v => h text v htext
  rw [get, hnone]
  rfl

/-- A value is the former one, or told by a variable. -/
theorem get_cases (e : Environment) (name : String) (read? : List Char → Option α) (old : α) :
    e.get name read? old = old ∨
      ∃ text, e name = some text ∧ read? text.toList = some (e.get name read? old) := by
  by_cases h : ∃ text v, e name = some text ∧ read? text.toList = some v
  · obtain ⟨text, v, htext, hread⟩ := h
    exact Or.inr ⟨text, htext, by rw [get_of_some htext hread, hread]⟩
  · exact Or.inl (get_of_none fun text v htext hread => h ⟨text, v, htext, hread⟩)

theorem replaces_get {tells : String → α → Prop}
    (h : ∀ text v, read? text.toList = some v ↔ tells text v) :
    e.Replaces name tells old (e.get name read? old) where
  told text v htext htells := get_of_some htext ((h text v).2 htells)
  kept hnone := get_of_none fun text v htext hread => hnone text v htext ((h text v).1 hread)

/-- Asking a variable again changes nothing. -/
theorem get_get (e : Environment) (name : String) (read? : List Char → Option α) (old : α) :
    e.get name read? (e.get name read? old) = e.get name read? old := by
  rcases get_cases e name read? old with h | ⟨text, htext, hread⟩
  · rw [h, h]
  · exact get_of_some htext hread

/-- A value has a property after a variable was asked iff the variable tells one that has, if it was
    without. -/
theorem holds_get_iff {P : α → Prop} (hold : ¬ P old) :
    P (e.get name read? old) ↔
      ∃ text v, e name = some text ∧ read? text.toList = some v ∧ P v := by
  constructor
  · intro h
    rcases get_cases e name read? old with hsame | ⟨text, htext, hread⟩
    · exact absurd (hsame ▸ h) hold
    · exact ⟨text, _, htext, hread, h⟩
  · rintro ⟨text, v, htext, hread, hv⟩
    rwa [get_of_some htext hread]

end Environment

namespace Settings

variable {c : Settings} {e : Environment}

/-! ## Fit settings -/

/-- What makes settings unfit. -/
theorem validate_eq_error_iff : (∃ failure, c.validate = .error failure) ↔
    c.storage.bufferSize = 0 ∨ c.storage.blockSize = 0 ∨ c.storage.hosts = [] ∨
      c.planning.maxWorkers = some 0 ∨ c.planning.containerExtension = "" ∨
      isShare c.locality.threshold = false := by
  unfold validate unfit
  split_ifs <;> simp_all

/-- Unfit settings are told as such. -/
theorem eq_settings_of_validate {failure : Failure} (h : c.validate = .error failure) :
    ∃ problem, failure = .settings problem none := by
  unfold validate unfit at h
  split_ifs at h <;> cases h <;> exact ⟨_, rfl⟩

/-- What is no number is no share. -/
theorem not_share_of_isNaN {x : Float} (h : x.isNaN) : ¬ (0.0 < x ∧ x ≤ 1.0) := by
  rintro ⟨hlt, -⟩
  change Float.lt 0.0 x = true at hlt
  rw [Float.lt, decide_eq_true_iff] at hlt
  change Float.Model.UnpackedFloat.lt (Float.toModel 0.0).unpack x.toModel.unpack = true at hlt
  change x.toModel.unpack.isNaN = true at h
  generalize (Float.toModel 0.0).unpack = zero at hlt
  -- Nothing can be compared with what is no number.
  cases hx : x.toModel.unpack with
  | notANumber =>
    rw [hx] at hlt
    cases zero <;> cases hlt
  | _ =>
    rw [hx] at h
    cases h

theorem isShare_eq_false_iff {x : Float} : isShare x = false ↔ ¬ (0.0 < x ∧ x ≤ 1.0) := by
  rw [isShare, Bool.and_eq_false_iff, decide_eq_false_iff_not, decide_eq_false_iff_not,
    ← Classical.not_and_iff_not_or_not]

/-! ## What an environment changes -/

/-- What becomes of settings in an environment: each is what a variable tells, and what it was if the
    variable is not set or tells nothing.  A number is told by its digits, with or without a plus sign
    in front, and hosts by a list with one host or more. -/
structure Overridden (e : Environment) (c d : Settings) : Prop where
  basePath : e.Replaces "WSP_STORAGE_BASE_PATH" (fun text path => path = ⟨text⟩)
    c.storage.basePath d.storage.basePath
  bufferSize : e.Replaces "WSP_STORAGE_BUFFER_SIZE" (fun text n => Decimal.Writes text.toList n.toNat)
    c.storage.bufferSize d.storage.bufferSize
  blockSize : e.Replaces "WSP_STORAGE_BLOCK_SIZE" (fun text n => Decimal.Writes text.toList n.toNat)
    c.storage.blockSize d.storage.blockSize
  hosts : e.Replaces "WSP_STORAGE_HOSTS" (fun text hosts => ListsHosts text hosts ∧ hosts ≠ [])
    c.storage.hosts d.storage.hosts
  maxWorkers : e.Replaces "WSP_PLANNER_MAX_WORKERS"
    (fun text bound => ∃ n, bound = some n ∧ Decimal.Writes text.toList n.toNat)
    c.planning.maxWorkers d.planning.maxWorkers
  containerExtension : e.Replaces "WSP_PLANNER_CONTAINER_EXTENSION" (fun text name => name = text)
    c.planning.containerExtension d.planning.containerExtension
  outputDirectory : e.Replaces "WSP_PLANNER_OUTPUT_DIR" (fun text path => path = ⟨text⟩)
    c.planning.outputDirectory d.planning.outputDirectory
  leastHosts : e.Replaces "WSP_LOCALITY_MIN_LOCATION_NAMES"
    (fun text n => Decimal.Writes text.toList n.toNat)
    c.locality.leastHosts d.locality.leastHosts
  threshold : e.Replaces "WSP_LOCALITY_THRESHOLD" (fun text x => Decimal.double? text.toList = some x)
    c.locality.threshold d.locality.threshold

theorem anyText?_eq_some_iff {text v : String} : anyText? text.toList = some v ↔ v = text := by
  rw [anyText?, String.ofList_toList, Option.some.injEq, eq_comm]

theorem anyPath?_eq_some_iff {text : String} {v : Path} :
    anyPath? text.toList = some v ↔ v = ⟨text⟩ := by
  rw [anyPath?, String.ofList_toList, Option.some.injEq, eq_comm]

theorem workerCount?_eq_some_iff {cs : List Char} {v : Option UInt32} :
    workerCount? cs = some v ↔ ∃ n, v = some n ∧ Decimal.Writes cs n.toNat := by
  rw [workerCount?, Option.map_eq_some_iff]
  constructor
  · rintro ⟨n, hn, rfl⟩
    obtain ⟨hwrites, hle⟩ := Decimal.unsigned?_eq_some_iff.1 hn
    refine ⟨_, rfl, ?_⟩
    rwa [UInt32.toNat_ofNat', Nat.mod_eq_of_lt (by omega)]
  · rintro ⟨n, rfl, hwrites⟩
    have := n.toNat_lt
    exact ⟨n.toNat, Decimal.unsigned?_eq_some_iff.2 ⟨hwrites, by omega⟩,
      by rw [UInt32.ofNat_toNat]⟩

theorem overridden_under (e : Environment) (c : Settings) : Overridden e c (c.under e) where
  basePath := Environment.replaces_get fun _ _ => anyPath?_eq_some_iff
  bufferSize := Environment.replaces_get fun _ _ => Decimal.quantity?_eq_some_iff
  blockSize := Environment.replaces_get fun _ _ => Decimal.quantity?_eq_some_iff
  hosts := Environment.replaces_get fun _ _ => hostList?_eq_some_iff
  maxWorkers := Environment.replaces_get fun _ _ => workerCount?_eq_some_iff
  containerExtension := Environment.replaces_get fun _ _ => anyText?_eq_some_iff
  outputDirectory := Environment.replaces_get fun _ _ => anyPath?_eq_some_iff
  leastHosts := Environment.replaces_get fun _ _ => Decimal.quantity?_eq_some_iff
  threshold := Environment.replaces_get fun _ _ => Iff.rfl

/-- An environment says no more the second time. -/
theorem under_under (e : Environment) (c : Settings) : (c.under e).under e = c.under e := by
  simp only [under, Environment.get_get]

theorem exists_writes_zero_iff {text : String} :
    (∃ n : UInt64, Decimal.quantity? text.toList = some n ∧ n = 0) ↔
      Decimal.Writes text.toList 0 := by
  constructor
  · rintro ⟨_, h, rfl⟩
    exact Decimal.quantity?_eq_some_iff.1 h
  · intro h
    exact ⟨0, Decimal.quantity?_eq_some_iff.2 h, rfl⟩

/-- **Which environments make fit settings unfit.** -/
theorem validate_under_eq_error_iff (h : c.validate = .ok ()) :
    (∃ failure, (c.under e).validate = .error failure) ↔
      (∃ name ∈ ["WSP_STORAGE_BUFFER_SIZE", "WSP_STORAGE_BLOCK_SIZE", "WSP_PLANNER_MAX_WORKERS"],
        ∃ text, e name = some text ∧ Decimal.Writes text.toList 0) ∨
      e "WSP_PLANNER_CONTAINER_EXTENSION" = some "" ∨
      ∃ text x, e "WSP_LOCALITY_THRESHOLD" = some text ∧ Decimal.double? text.toList = some x ∧
        ¬ (0.0 < x ∧ x ≤ 1.0) := by
  have hfit : ¬ ∃ failure, c.validate = .error failure := by
    rintro ⟨failure, hfailure⟩
    cases h.symm.trans hfailure
  rw [validate_eq_error_iff] at hfit ⊢
  simp only [not_or] at hfit
  obtain ⟨hbuffer, hblock, hhosts, hworkers, hextension, hthreshold⟩ := hfit
  have hzero : ∀ {name : String} {old : UInt64}, old ≠ 0 →
      (e.get name Decimal.quantity? old = 0 ↔
        ∃ text, e name = some text ∧ Decimal.Writes text.toList 0) := by
    intro name old hold
    rw [Environment.holds_get_iff (P := (· = 0)) hold]
    simp only [exists_and_left, exists_writes_zero_iff]
  have hnohosts : (c.under e).storage.hosts ≠ [] := by
    intro hempty
    obtain ⟨text, hosts, -, hread, hnil⟩ :=
      (Environment.holds_get_iff (P := (· = [])) hhosts).1 hempty
    exact (hostList?_eq_some_iff.1 hread).2 hnil
  have hnoworkers : (c.under e).planning.maxWorkers = some 0 ↔
      ∃ text, e "WSP_PLANNER_MAX_WORKERS" = some text ∧ Decimal.Writes text.toList 0 := by
    refine (Environment.holds_get_iff (P := (· = some 0)) hworkers).trans ?_
    simp only [workerCount?_eq_some_iff]
    constructor
    · rintro ⟨text, _, htext, ⟨n, rfl, hwrites⟩, hn⟩
      cases hn
      exact ⟨text, htext, hwrites⟩
    · rintro ⟨text, htext, hwrites⟩
      exact ⟨text, _, htext, ⟨0, rfl, hwrites⟩, rfl⟩
  have hnoextension : (c.under e).planning.containerExtension = "" ↔
      e "WSP_PLANNER_CONTAINER_EXTENSION" = some "" := by
    refine (Environment.holds_get_iff (P := (· = "")) hextension).trans ?_
    simp only [anyText?_eq_some_iff]
    constructor
    · rintro ⟨_, _, htext, rfl, rfl⟩
      exact htext
    · intro htext
      exact ⟨"", "", htext, rfl, rfl⟩
  have hnoshare : isShare (c.under e).locality.threshold = false ↔
      ∃ text x, e "WSP_LOCALITY_THRESHOLD" = some text ∧ Decimal.double? text.toList = some x ∧
        ¬ (0.0 < x ∧ x ≤ 1.0) := by
    simp only [← isShare_eq_false_iff]
    exact Environment.holds_get_iff (P := fun x => isShare x = false) hthreshold
  have hbuffers : (c.under e).storage.bufferSize = 0 ↔ _ := hzero hbuffer
  have hblocks : (c.under e).storage.blockSize = 0 ↔ _ := hzero hblock
  rw [hbuffers, hblocks, hnoworkers, hnoextension, hnoshare, iff_false_intro hnohosts]
  simp only [List.mem_cons, List.not_mem_nil, or_false, exists_eq_or_imp, exists_eq_left, false_or,
    or_assoc]

end Settings

/-! ## Invocations -/

namespace Invocation

/-- Why an invocation has no settings to do anything under. -/
inductive Unsettled (i : Invocation) (e : Environment) (disk : Disk) : Failure → Prop
  /-- The file with the settings cannot be read, or holds no fit ones. -/
  | file {path failure} : i.settingsFile = some path → Settings.load disk path = .error failure →
      Unsettled i e disk failure
  /-- The settings of the file are unfit in the environment. -/
  | overridden {path base failure} : i.settingsFile = some path →
      Settings.load disk path = .ok base → (base.under e).validate = .error failure →
      Unsettled i e disk failure
  /-- The default settings are unfit in the environment. -/
  | byDefault {failure} : i.settingsFile = none → (Settings.under e {}).validate = .error failure →
      Unsettled i e disk failure

variable {i : Invocation} {e : Environment} {disk : Disk} {path : Path} {failure : Failure}

theorem settings_eq_error_iff : i.settings e disk = .error failure ↔ Unsettled i e disk failure := by
  have hunder : ∀ base : Settings,
      ((base.under e).validate >>= fun _ => Except.ok (base.under e)) = .error failure ↔
        (base.under e).validate = .error failure := by
    intro base
    rw [bind_eq_error_iff]
    simp
  cases hfile : i.settingsFile with
  | none =>
    have hsettings : i.settings e disk =
        ((Settings.under e {}).validate >>= fun _ => .ok (Settings.under e {})) := by
      rw [settings, hfile]
      rfl
    rw [hsettings, hunder]
    constructor
    · exact .byDefault hfile
    · rintro (⟨hsome, -⟩ | ⟨hsome, -⟩ | ⟨-, hvalidate⟩)
      · cases hfile.symm.trans hsome
      · cases hfile.symm.trans hsome
      · exact hvalidate
  | some path =>
    have hsettings : i.settings e disk = (Settings.load disk path >>= fun base =>
        (base.under e).validate >>= fun _ => .ok (base.under e)) := by
      rw [settings, hfile]
      rfl
    rw [hsettings, bind_eq_error_iff]
    simp only [hunder]
    constructor
    · rintro (hload | ⟨base, hload, hvalidate⟩)
      · exact .file hfile hload
      · exact .overridden hfile hload hvalidate
    · rintro (⟨hsome, hload⟩ | ⟨hsome, hload, hvalidate⟩ | ⟨hnone, -⟩)
      · cases hfile.symm.trans hsome
        exact Or.inl hload
      · cases hfile.symm.trans hsome
        exact Or.inr ⟨_, hload, hvalidate⟩
      · cases hfile.symm.trans hnone

/-- Trouble with a file of settings is no overflow. -/
theorem failureStatus_of_load (h : Settings.load disk path = .error failure) :
    Outcome.failureStatus failure = 1 := by
  rw [Settings.load] at h
  rcases bind_eq_error_iff.1 h with htext | ⟨text, -, hrest⟩
  · unfold Settings.readText at htext
    split at htext
    · cases htext
      unfold Failure.ofSystem
      split <;> rfl
    · split at htext <;> cases htext
      rfl
  · rcases bind_eq_error_iff.1 hrest with hparse | ⟨s, -, hvalidate⟩
    · unfold Settings.parse at hparse
      split at hparse <;> cases hparse
      rfl
    · rcases bind_eq_error_iff.1 hvalidate with hunfit | ⟨-, -, hok⟩
      · obtain ⟨problem, rfl⟩ := Settings.eq_settings_of_validate hunfit
        rfl
      · cases hok

theorem failureStatus_of_unsettled (h : Unsettled i e disk failure) :
    Outcome.failureStatus failure = 1 := by
  cases h with
  | file _ hload => exact failureStatus_of_load hload
  | overridden _ _ hvalidate | byDefault _ hvalidate =>
    obtain ⟨problem, rfl⟩ := Settings.eq_settings_of_validate hvalidate
    rfl

end Invocation

/-! ## Main result -/

namespace Settings

/-- **What an environment makes of fit settings**:

    * They become unfit iff a variable tells no bytes to be read at once, no bytes of a block or no
      workers, an empty end of names, or a threshold that is no share of the whole, which what is no
      number never is.
    * Each of them is what its variable tells, and what it was if the variable is not set or tells
      nothing, as digits that are none and a list without a host do.
    * The environment changes nothing more the second time.
    * Nothing is done, and no file is changed, for a command line whose file of settings cannot be
      read or holds no fit ones, or whose settings become unfit. -/
theorem under_environment (e : Environment) (c : Settings) (h : c.validate = .ok ()) :
    ((∃ failure, (c.under e).validate = .error failure) ↔
      (∃ name ∈ ["WSP_STORAGE_BUFFER_SIZE", "WSP_STORAGE_BLOCK_SIZE", "WSP_PLANNER_MAX_WORKERS"],
        ∃ text, e name = some text ∧ Decimal.Writes text.toList 0) ∨
      e "WSP_PLANNER_CONTAINER_EXTENSION" = some "" ∨
      ∃ text x, e "WSP_LOCALITY_THRESHOLD" = some text ∧ Decimal.double? text.toList = some x ∧
        ¬ (0.0 < x ∧ x ≤ 1.0)) ∧
    (∀ x : Float, x.isNaN → ¬ (0.0 < x ∧ x ≤ 1.0)) ∧
    Overridden e c (c.under e) ∧
    (c.under e).under e = c.under e ∧
    ∀ disk arguments i failure, Invocation.parse arguments = .ok i → i.Unsettled e disk failure →
      Outcome.of e disk arguments = ⟨1, "", failure.message ++ "\n", disk⟩ := by
  refine ⟨validate_under_eq_error_iff h, fun x => not_share_of_isNaN, overridden_under e c,
    under_under e c, ?_⟩
  intro disk arguments i failure hparse hunsettled
  rw [Outcome.of, hparse]
  dsimp only
  rw [Invocation.run, Invocation.settings_eq_error_iff.2 hunsettled]
  dsimp only
  rw [Invocation.failureStatus_of_unsettled hunsettled]

/-- No workers, a threshold that is no number, digits that are none, and a host left out. -/
theorem under_environment_unfit :
    let e := Environment.ofList [("WSP_STORAGE_HOSTS", " a,, b "), ("WSP_STORAGE_BUFFER_SIZE", "many"),
      ("WSP_PLANNER_MAX_WORKERS", "0"), ("WSP_LOCALITY_THRESHOLD", "nan")]
    let settings := Settings.under e {}
    Settings.validate {} = .ok () ∧
    (∃ failure, settings.validate = .error failure) ∧
    settings.storage.hosts = ["a", "b"] ∧ settings.storage.bufferSize = 65536 ∧
    settings.under e = settings ∧
    Outcome.of e .empty ["describe", "x", "y"] =
      ⟨1, "", "Configuration error: planner.max_workers must be greater than 0 when set\n", .empty⟩ := by
  intro e settings
  have hfit : Settings.validate {} = .ok () := by decide +kernel
  have hunfit : settings.validate =
      .error (.settings "planner.max_workers must be greater than 0 when set" none) := by decide +kernel
  have hparse : Invocation.parse ["describe", "x", "y"] = .ok ⟨none, .describe "x" ["y"]⟩ := by
    decide +kernel
  obtain ⟨hiff, -, hoverridden, htwice, houtcome⟩ := under_environment e {} hfit
  refine ⟨hfit, hiff.2 ?_, ?_, ?_, htwice, houtcome _ _ _ _ hparse (.byDefault rfl hunfit)⟩
  · exact Or.inl ⟨"WSP_PLANNER_MAX_WORKERS", by decide, "0", rfl, Decimal.writes_toString 0⟩
  · exact hoverridden.hosts.told _ _ rfl (hostList?_eq_some_iff.1 (by decide +kernel))
  · refine hoverridden.bufferSize.kept fun text n htext hwrites => ?_
    cases htext
    have hmany : Decimal.quantity? "many".toList = none := by decide
    cases hmany.symm.trans (Decimal.quantity?_eq_some_iff.2 hwrites)

end Settings

end Apportion
