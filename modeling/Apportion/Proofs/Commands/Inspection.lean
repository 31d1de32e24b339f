/-
  Inspecting a split, and what its text tells.

  * `linesWithin_eq_map`: the walk through the references of a split shows what a cursor yields.
  * `report_eq`: the text is the hosts on a line and a line for each reference.
  * `shownPaths` finds the paths in the text of a split (`shownPaths_report`).
  * `inspect_shows_split`: what is inspected is what is read, and its paths are told by the text.
-/
import Apportion.Invocation.Outcome
import Apportion.Proofs.Commands
import Apportion.Proofs.Cursor
import Apportion.Proofs.Decimal.Numeral
import Apportion.Proofs.Path
import Apportion.Proofs.Sequence

namespace Apportion

open Sequence

namespace Decimal

/-- A number with two places is shown by digits, a point and a sign, or by a name. -/
theorem mem_twoPlaces {x : Float32} {c : Char} (h : c ∈ (twoPlaces x).toList) :
    c.isDigit ∨ c ∈ "-.NaNinf".toList := by
  have hmark : ∀ mark : String, mark.toList ⊆ "-.NaNinf".toList → c ∈ mark.toList →
      c.isDigit ∨ c ∈ "-.NaNinf".toList := fun _ hsub hc => Or.inr (hsub hc)
  have hsign : ∀ {b : Prop} [Decidable b], c ∈ (if b then "" else "-").toList →
      c.isDigit ∨ c ∈ "-.NaNinf".toList := by
    intro b _ hc
    split at hc
    · cases hc
    · exact hmark "-" (by decide) hc
  unfold twoPlaces at h
  dsimp only at h
  split at h
  · exact hmark "NaN" (by decide) h
  split at h
  · rw [String.toList_append, List.mem_append] at h
    rcases h with h | h
    · exact hsign h
    · exact hmark "inf" (by decide) h
  · simp only [String.toList_append, List.mem_append] at h
    rcases h with ((h | h) | h) | h
    · exact hsign h
    · exact Or.inl (isDigit_of_mem_toString h)
    · exact hmark "." (by decide) h
    · exact Or.inl (isDigit_of_mem_padded h)

end Decimal

namespace Commands

/-! ## The text of a split -/

/-- How far a walk through `count` references has come on the one at `index`, as a text. -/
def progressText (count index : Nat) : String :=
  Decimal.twoPlaces (Cursor.single index / Cursor.single count)

/-- What is shown of a reference with its index, in a walk through `count` of them. -/
def entry (count : Nat) (item : Nat × String) : String :=
  toString item.1 ++ "\t" ++ item.2 ++ "\t" ++ progressText count item.1

/-- The paths that the text of a split shows: behind the first line, what stands between the first tab
    of a line and the second one. -/
def shownPaths (text : String) : List String :=
  ((text.toList.splitOn '\n').drop 1).filterMap fun line =>
    (line.splitOn '\t')[1]?.map String.ofList

variable {split : Split} {count : Nat} {item : Nat × String}

/-- Neither tabs nor line ends are in the texts of progress. -/
theorem notMem_progressText (count index : Nat) :
    '\t' ∉ (progressText count index).toList ∧ '\n' ∉ (progressText count index).toList :=
  ⟨fun h => absurd (Decimal.mem_twoPlaces h) (by decide),
    fun h => absurd (Decimal.mem_twoPlaces h) (by decide)⟩

/-- **A walk shows what its cursor yields.** -/
theorem linesWithin_eq_map (fuel : Nat) (c : Cursor) : linesWithin fuel c =
    (c.drainWithin fuel).1.map fun item => entry c.split.paths.length item ++ "\n" := by
  induction fuel generalizing c with
  | zero => rfl
  | succ fuel ih =>
    rw [linesWithin, Cursor.drainWithin]
    cases hk : c.position.following with
    | none =>
      simp only [Cursor.next, Cursor.advance, hk]
      rfl
    | some k =>
      by_cases hlt : k < c.split.paths.length
      · have hline : line { c with position := .on k } =
            entry c.split.paths.length (k, c.split.paths[k]) ++ "\n" := by
          simp only [line, Cursor.current, List.getElem?_eq_getElem hlt, Option.map_some]
          rfl
        simp only [Cursor.next_of_lt hk hlt, Cursor.advance, hk, hlt, if_true, hline, ih,
          List.map_cons]
      · simp only [Cursor.next_of_le hk (Nat.not_lt.1 hlt), Cursor.advance, hk, hlt, if_false]
        rfl

/-- **The text of a split** is its hosts on a line and a line for each reference. -/
theorem report_eq (split : Split) : report split =
    "hosts: " ++ ",".intercalate split.hosts ++ "\n" ++
      String.join (((List.range split.paths.length).zip split.paths).map
        fun item => entry split.paths.length item ++ "\n") := by
  have hitems := (Cursor.drainWithin_eq (c := .start split) (k := 0) rfl (Nat.zero_le _)
    (Nat.le_refl split.paths.length)).1
  rw [report, linesWithin_eq_map, hitems, List.range_eq_range']
  rfl

theorem notMem_entry (h : '\n' ∉ item.2.toList) : '\n' ∉ (entry count item).toList := by
  have hindex : '\n' ∉ (toString item.1).toList := fun hmem =>
    absurd (Decimal.isDigit_of_mem_toString hmem) (by decide)
  have htab : '\n' ∉ "\t".toList := by decide
  simp only [entry, String.toList_append, List.mem_append, not_or]
  exact ⟨⟨⟨⟨hindex, htab⟩, h⟩, htab⟩, (notMem_progressText count item.1).2⟩

/-- What stands between the tabs of an entry. -/
theorem pieces_entry (h : '\t' ∉ item.2.toList) : (entry count item).toList.splitOn '\t' =
    [(toString item.1).toList, item.2.toList, (progressText count item.1).toList] := by
  have hindex : '\t' ∉ (toString item.1).toList := fun hmem =>
    absurd (Decimal.isDigit_of_mem_toString hmem) (by decide)
  have htext : (entry count item).toList = (toString item.1).toList ++ '\t' ::
      (item.2.toList ++ '\t' :: (progressText count item.1).toList) := by
    simp [entry]
  rw [htext, List.splitOn_append_cons_self_of_not_mem hindex,
    List.splitOn_append_cons_self_of_not_mem h,
    List.splitOn_eq_singleton (notMem_progressText count item.1).1]

/-- The paths of entries are found behind the first tabs of their lines. -/
theorem shownPaths_entries {first : List Char} {items : List (Nat × String)} (hfirst : '\n' ∉ first)
    (hitems : ∀ item ∈ items, '\n' ∉ item.2.toList ∧ '\t' ∉ item.2.toList) :
    shownPaths (String.ofList (first ++ '\n' ::
      (items.map fun item => (entry count item).toList).flatMap (· ++ ['\n']))) =
      items.map Prod.snd := by
  have hlines : ∀ l ∈ items.map fun item => (entry count item).toList, '\n' ∉ l := by
    intro l hl
    obtain ⟨item, hitem, rfl⟩ := List.mem_map.1 hl
    exact notMem_entry (hitems item hitem).1
  have hfound : ∀ item ∈ items, ((entry count item).toList.splitOn '\t')[1]?.map String.ofList =
      some item.2 := by
    intro item hitem
    rw [pieces_entry (hitems item hitem).2]
    exact congrArg some String.ofList_toList
  -- behind the last line end there is nothing, and no tab in it
  have hbehind : ([[]] : List (List Char)).filterMap
      (fun line => (line.splitOn '\t')[1]?.map String.ofList) = [] := rfl
  rw [shownPaths, String.toList_ofList, List.splitOn_append_cons_self_of_not_mem hfirst,
    Text.splitOn_lines hlines, List.drop_one, List.tail_cons, List.filterMap_append,
    List.filterMap_map, hbehind, List.append_nil]
  rw [← List.filterMap_eq_map]
  refine List.filterMap_congr fun item hitem => ?_
  rw [Function.comp_apply, Function.comp_apply]
  exact hfound item hitem

/-- **The paths of a split are told by its text**, if no path has a tab or a line end, and no host a
    line end. -/
theorem shownPaths_report (hpaths : ∀ p ∈ split.paths, '\n' ∉ p.toList ∧ '\t' ∉ p.toList)
    (hhosts : ∀ host ∈ split.hosts, '\n' ∉ host.toList) : shownPaths (report split) = split.paths := by
  have hfirst : '\n' ∉ ("hosts: " ++ ",".intercalate split.hosts).toList := by
    rw [String.toList_append, List.mem_append, not_or, String.toList_intercalate]
    refine ⟨by decide, fun h => ?_⟩
    rcases Text.mem_intercalate h with h | ⟨_, hhost, h⟩
    · exact absurd h (by decide)
    · obtain ⟨host, hmem, rfl⟩ := List.mem_map.1 hhost
      exact hhosts host hmem h
  have hsnd : ((List.range split.paths.length).zip split.paths).map Prod.snd = split.paths :=
    List.map_snd_zip (Nat.le_of_eq List.length_range.symm)
  have htext : report split = String.ofList
      (("hosts: " ++ ",".intercalate split.hosts).toList ++ '\n' ::
        (((List.range split.paths.length).zip split.paths).map fun item =>
          (entry split.paths.length item).toList).flatMap (· ++ ['\n'])) := by
    refine String.toList_injective ?_
    rw [report_eq, String.toList_ofList]
    simp [String.toList_join, List.flatMap_map]
  rw [htext, shownPaths_entries hfirst ?_, hsnd]
  exact fun item hitem => hpaths item.2 (hsnd ▸ List.mem_map_of_mem hitem)

/-! ## Main result -/

/-- A split is loaded from a file that stores it. -/
theorem load_eq_ok_iff {s : DiskStore} {path : Path} : Split.load s path = .ok split ↔
    ∃ loc content, s.disk.locate (s.full path) = .ok (loc, .file content) ∧
      Split.decode content = .ok split := by
  rw [Split.load, bind_eq_ok_iff]
  constructor
  · rintro ⟨content, hread, hdecode⟩
    obtain ⟨loc, hlocate⟩ := DiskStore.read_eq_ok_iff.1 hread
    exact ⟨loc, content, hlocate, hdecode⟩
  · rintro ⟨loc, content, hlocate, hdecode⟩
    exact ⟨content, DiskStore.read_eq_ok_iff.2 ⟨loc, hlocate⟩, hdecode⟩

/-- In a store on the disk a split is inspected by loading it. -/
theorem inspect_of_create {settings : Settings} {path : Path} {disk disk' : Disk} {s : DiskStore}
    (h : DiskStore.create settings.storage disk = (.ok s, disk')) :
    inspect settings path disk = ((Split.load s path).map report, disk') := by
  rw [inspect, h]

/-- **What is inspected is what is read.**

    * Without a store on the disk nothing is inspected; with one, inspecting succeeds iff there is a file
      at the path that stores a split, and fails as reading the split fails.  It leaves the disk as
      opening the store does.
    * The text is the hosts on a line and then a line for each reference, in order: its index, its path
      and how far the walk has come, with tabs between them; neither tabs nor line ends are in what
      tells how far it has come.
    * If no path and no host has a tab or a line end, then the text tells the paths.
    * The text is what an invocation prints, and it prints nothing if inspecting fails. -/
theorem inspect_shows_split (settings : Settings) (path : Path) (disk : Disk) :
    (∀ failure disk', DiskStore.create settings.storage disk = (.error failure, disk') →
      inspect settings path disk = (.error failure, disk')) ∧
    (∀ s disk', DiskStore.create settings.storage disk = (.ok s, disk') →
      (inspect settings path disk).2 = disk' ∧
      ((∃ text, (inspect settings path disk).1 = .ok text) ↔
        ∃ loc content split, disk'.locate (s.full path) = .ok (loc, .file content) ∧
          Split.decode content = .ok split) ∧
      (∀ failure, (inspect settings path disk).1 = .error failure ↔
        Split.load s path = .error failure) ∧
      ∀ text, (inspect settings path disk).1 = .ok text → ∃ split, Split.load s path = .ok split ∧
        text = "hosts: " ++ ",".intercalate split.hosts ++ "\n" ++
          String.join (((List.range split.paths.length).zip split.paths).map fun (i, p) =>
            toString i ++ "\t" ++ p ++ "\t" ++ progressText split.paths.length i ++ "\n") ∧
        ((∀ p ∈ split.paths ++ split.hosts, '\n' ∉ p.toList ∧ '\t' ∉ p.toList) →
          shownPaths text = split.paths)) ∧
    (∀ count i, '\t' ∉ (progressText count i).toList ∧ '\n' ∉ (progressText count i).toList) ∧
    ∀ e arguments invocation, Invocation.parse arguments = .ok invocation →
      invocation.request = .inspect path → invocation.settings e disk = .ok settings →
      (Outcome.of e disk arguments).output =
        match (inspect settings path disk).1 with
        | .ok text => text
        | .error _ => "" := by
  refine ⟨fun failure disk' h => ?_, fun s disk' h => ?_, notMem_progressText, ?_⟩
  · rw [inspect, h]
  · have hdisk : s.disk = disk' := (DiskStore.create_eq_ok h).1
    rw [inspect_of_create h]
    refine ⟨rfl, ?_, fun failure => ?_, fun text htext => ?_⟩
    · rw [← hdisk]
      constructor
      · rintro ⟨text, htext⟩
        obtain ⟨split, hload, -⟩ := map_eq_ok_iff.1 htext
        obtain ⟨loc, content, hlocate, hdecode⟩ := load_eq_ok_iff.1 hload
        exact ⟨loc, content, split, hlocate, hdecode⟩
      · rintro ⟨loc, content, split, hlocate, hdecode⟩
        exact ⟨report split,
          map_eq_ok_iff.2 ⟨split, load_eq_ok_iff.2 ⟨loc, content, hlocate, hdecode⟩, rfl⟩⟩
    · cases Split.load s path <;> simp [Except.map]
    · obtain ⟨split, hload, rfl⟩ := map_eq_ok_iff.1 htext
      refine ⟨split, hload, report_eq split, fun hclean => ?_⟩
      exact shownPaths_report (fun p hp => hclean p (List.mem_append_left _ hp))
        fun host hhost => (hclean host (List.mem_append_right _ hhost)).1
  · intro e arguments invocation hparse hrequest hsettings
    rw [Outcome.of, hparse]
    dsimp only
    rw [Invocation.run, hsettings, hrequest]
    dsimp only [Invocation.perform]
    rcases inspect settings path disk with ⟨_ | text, disk'⟩ <;> rfl

end Commands

end Apportion
