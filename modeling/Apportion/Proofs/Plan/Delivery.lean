/-
  From a plan to the workers: splits are saved, loaded and walked through.

  * `Split.saveEach`: splits saved one after the other.
  * `load_of_saveEach`: under different plain paths each is loaded as it was saved.
  * `flatMap_drain`: walking through the splits of a plan yields its references in order.
  * `yields_references_of_saved`: nothing is lost between discovery and the workers.
-/
import Apportion.Proofs.Cursor
import Apportion.Proofs.Plan.Splits
import Apportion.Proofs.Split.Codec
import Apportion.Proofs.Store.Backend

namespace Apportion

open Sequence

/-! ## Saving and loading -/

namespace Split

section
variable {σ : Type} [Store σ]

/-- Saves splits, each under its path, up to the first that cannot be saved. -/
def saveEach (s : σ) : List (Split × Path) → Except Failure Unit × σ
  | [] => (.ok (), s)
  | (split, path) :: rest =>
    match split.save s path with
    | (.error failure, s) => (.error failure, s)
    | (.ok (), s) => saveEach s rest

variable {s s' : σ} {split : Split} {path other : Path}

theorem save_eq_ok_iff :
    split.save s path = (.ok (), s') ↔
      ∃ o, split.encode = .ok o ∧ Store.save s path o = (.ok (), s') := by
  unfold save
  cases split.encode with
  | error failure =>
    constructor
    · intro h
      cases h
    · rintro ⟨o, ho, -⟩
      cases ho
  | ok o =>
    constructor
    · intro h
      exact ⟨o, rfl, h⟩
    · rintro ⟨o', ho, h⟩
      cases ho
      exact h

theorem saveEach_cons_eq_ok_iff {rest : List (Split × Path)} :
    saveEach s ((split, path) :: rest) = (.ok (), s') ↔
      ∃ mid, split.save s path = (.ok (), mid) ∧ saveEach mid rest = (.ok (), s') := by
  rw [saveEach]
  constructor
  · intro h
    split at h
    · cases h
    · rename_i mid hmid
      exact ⟨mid, hmid, h⟩
  · rintro ⟨mid, hmid, h⟩
    rw [hmid]
    exact h

theorem load_of_read {o : Octets} (hread : Store.read s path = .ok o)
    (hencode : split.encode = .ok o) : load s path = .ok split :=
  bind_eq_ok_iff.2 ⟨o, hread, decode_of_encode hencode⟩

variable [Store.Faithful σ]

/-- What is read elsewhere stays while splits are saved. -/
theorem read_of_saveEach {work : List (Split × Path)} {kept : Octets}
    (hplain : ∀ w ∈ work, w.2.IsPlain) (hother : other.IsPlain)
    (hne : other ∉ work.map Prod.snd) (hsaved : saveEach s work = (.ok (), s'))
    (hread : Store.read s other = .ok kept) : Store.read s' other = .ok kept := by
  induction work generalizing s with
  | nil =>
    cases hsaved
    exact hread
  | cons w work ih =>
    obtain ⟨split, path⟩ := w
    obtain ⟨hpath, hplain⟩ := List.forall_mem_cons.1 hplain
    rw [List.map_cons, List.mem_cons, not_or] at hne
    obtain ⟨mid, hmid, hsaved⟩ := saveEach_cons_eq_ok_iff.1 hsaved
    obtain ⟨o, -, hsave⟩ := save_eq_ok_iff.1 hmid
    exact ih hplain hne.2 hsaved
      (Store.Faithful.read_of_save_of_ne hpath hother hne.1 hsave hread)

/-- **Each split is loaded as it was saved**, under plain paths that differ. -/
theorem load_of_saveEach {work : List (Split × Path)} (hplain : ∀ w ∈ work, w.2.IsPlain)
    (hdistinct : (work.map Prod.snd).Nodup) (hsaved : saveEach s work = (.ok (), s')) :
    ∀ w ∈ work, load s' w.2 = .ok w.1 := by
  induction work generalizing s with
  | nil => simp
  | cons w work ih =>
    obtain ⟨split, path⟩ := w
    obtain ⟨hpath, hplain⟩ := List.forall_mem_cons.1 hplain
    obtain ⟨hfresh, hdistinct⟩ := List.nodup_cons.1 hdistinct
    obtain ⟨mid, hmid, hsaved⟩ := saveEach_cons_eq_ok_iff.1 hsaved
    refine List.forall_mem_cons.2 ⟨?_, ih hplain hdistinct hsaved⟩
    obtain ⟨o, hencode, hsave⟩ := save_eq_ok_iff.1 hmid
    -- the saves that follow go to other paths
    have hread := Store.Faithful.read_of_save hpath hsave
    exact load_of_read (read_of_saveEach hplain hpath hfresh hsaved hread) hencode

end

end Split

/-! ## From discovery to the workers -/

namespace Plan

variable {σ : Type} [Store σ]

theorem ofInputs_eq_ok_iff {settings : LocalitySettings} {resolver : Resolver} {s : σ}
    {inputs : List String} {bound : Option UInt32} {out : List Split} :
    ofInputs settings resolver s inputs bound = .ok out ↔
      ∃ references, Discovery.references s inputs = .ok references ∧
        splits settings resolver s references bound = .ok out :=
  bind_eq_ok_iff

/-- Planning succeeds for references only. -/
theorem ne_nil_of_splits {settings : LocalitySettings} {resolver : Resolver} {s : σ}
    {references : List String} {bound : Option UInt32} {out : List Split}
    (h : splits settings resolver s references bound = .ok out) : references ≠ [] := by
  rintro rfl
  cases h

/-- What the cursors of a plan yield, one after the other. -/
theorem flatMap_drain {settings : LocalitySettings} {resolver : Resolver} {s : σ}
    {references : List String} {bound : Option UInt32} {out : List Split}
    (h : splits settings resolver s references bound = .ok out) :
    out.flatMap (fun split => (Cursor.start split).drain.1.map Prod.snd) = references := by
  have hne := ne_nil_of_splits h
  obtain ⟨estimates, hall, rfl⟩ := (splits_eq_ok_iff settings resolver s bound hne).1 h
  have happortioned : Apportioned settings resolver s references bound _ :=
    apportioned_splitsOf settings resolver s hne hall
  have hdrain : (fun split : Split => (Cursor.start split).drain.1.map Prod.snd) =
      Split.paths := by
    funext split
    rw [Cursor.drain_start, List.map_snd_zip (Nat.le_of_eq List.length_range.symm)]
  rw [hdrain, List.flatMap, happortioned.complete]

/-- **From discovery to the workers**, on any backend.  If the splits of a plan are saved under
    different plain paths, each is loaded from its path, and the cursors of the splits yield,
    one after the other, the references discovered, in order and each as often as it was
    found, with indices from zero on in every split. -/
theorem yields_references_of_saved (b : Backend) (settings : LocalitySettings)
    (resolver : Resolver) {s s' : b.Content} {inputs : List String} {bound : Option UInt32}
    {out : List Split} {paths : List Path}
    (hplan : ofInputs settings resolver s inputs bound = .ok out)
    (hlength : paths.length = out.length) (hplain : ∀ path ∈ paths, path.IsPlain)
    (hdistinct : paths.Nodup) (hsaved : Split.saveEach s (out.zip paths) = (.ok (), s')) :
    paths.mapM (Split.load s') = .ok out ∧
    ∃ references, Discovery.references s inputs = .ok references ∧
      out.flatMap (fun split => (Cursor.start split).drain.1.map Prod.snd) = references ∧
      ∀ split ∈ out, (Cursor.start split).drain.1.map Prod.fst = List.range split.paths.length ∧
        (Cursor.start split).drain.2 = ⟨split, .exhausted⟩ := by
  obtain ⟨references, hfound, hsplits⟩ := ofInputs_eq_ok_iff.1 hplan
  refine ⟨?_, references, hfound, flatMap_drain hsplits, fun split _ => ?_⟩
  · have hpaths : (out.zip paths).map Prod.snd = paths := List.map_snd_zip (Nat.le_of_eq hlength)
    have hloaded := Split.load_of_saveEach
      (fun w hw => hplain _ (List.of_mem_zip hw).2) (hpaths.symm ▸ hdistinct) hsaved
    exact mapM_eq_ok_iff.2
      (List.forall₂_iff_zip.2 ⟨hlength.symm, fun hw => hloaded _ hw⟩).flip
  · rw [Cursor.drain_start, List.map_fst_zip (Nat.le_of_eq List.length_range)]
    exact ⟨rfl, rfl⟩

/-- Two references for two workers, in memory and on a disk. -/
theorem yields_references_of_saved_pair :
    let out : List Split := [.of ["a"] [], .of ["b"] []]
    let paths : List Path := [⟨"out/0"⟩, ⟨"out/1"⟩]
    let c : Backend.memory.Content := (Catalog.empty.put ⟨"a"⟩ []).put ⟨"b"⟩ []
    let entries := [("a", Tree.file []), ("b", Tree.file [])]
    let d : Backend.disk.Content :=
      ⟨⟨"data"⟩, 8, 4, ["h"], ⟨.directory [("data", .directory entries)], [], rfl⟩⟩
    (∃ c', Split.saveEach c (out.zip paths) = (.ok (), c') ∧
      paths.mapM (Split.load c') = .ok out) ∧
    ∃ d', Split.saveEach d (out.zip paths) = (.ok (), d') ∧ paths.mapM (Split.load d') = .ok out := by
  intro out paths c entries d
  have hplain : ∀ path ∈ paths, path.IsPlain := by decide
  have hdistinct : paths.Nodup := by decide
  constructor
  · have hplan : ofInputs {} (fun _ => .ok []) c ["a", "b"] (some 2) = .ok out :=
      toOption_eq_some_iff.1 (by decide +kernel)
    obtain ⟨⟨⟩, hok⟩ : ∃ a, (Split.saveEach c (out.zip paths)).1 = .ok a :=
      exists_eq_ok_iff.2 (by decide +kernel)
    have hsaved : Split.saveEach c (out.zip paths) = (.ok (), _) := Prod.ext hok rfl
    exact ⟨_, hsaved, (yields_references_of_saved .memory {} (fun _ => .ok []) hplan rfl hplain
      hdistinct hsaved).1⟩
  · have hplan : ofInputs {} (fun _ => .ok []) d ["a", "b"] (some 2) = .ok out :=
      toOption_eq_some_iff.1 (by decide +kernel)
    obtain ⟨⟨⟩, hok⟩ : ∃ a, (Split.saveEach d (out.zip paths)).1 = .ok a :=
      exists_eq_ok_iff.2 (by decide +kernel)
    have hsaved : Split.saveEach d (out.zip paths) = (.ok (), _) := Prod.ext hok rfl
    exact ⟨_, hsaved, (yields_references_of_saved .disk {} (fun _ => .ok []) hplan rfl hplain
      hdistinct hsaved).1⟩

end Plan

end Apportion
