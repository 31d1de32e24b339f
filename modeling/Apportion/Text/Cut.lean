/-
  Texts cut in two at a separating character.

  * `cutFirst?`, `cutLast?`: what lies before and after the first, or the last,
    separator.
  * `cutFirst?_eq_some_iff`, `cutLast?_eq_some_iff`: where the cut falls.
-/

namespace Apportion

namespace Text

/-- The text before the first `sep` and the text after it. -/
def cutFirst? (sep : Char) (cs : List Char) : Option (List Char × List Char) :=
  match cs.dropWhile (· ≠ sep) with
  | [] => none
  | _ :: rest => some (cs.takeWhile (· ≠ sep), rest)

/-- The text before the last `sep` and the text after it. -/
def cutLast? (sep : Char) (cs : List Char) : Option (List Char × List Char) :=
  (cutFirst? sep cs.reverse).map fun (after, before) => (before.reverse, after.reverse)

theorem cutFirst?_eq_some_iff {sep : Char} {cs before after : List Char} :
    cutFirst? sep cs = some (before, after) ↔ cs = before ++ sep :: after ∧ sep ∉ before := by
  induction cs generalizing before with
  | nil => simp [cutFirst?]
  | cons c cs ih =>
    by_cases hc : c = sep
    · subst hc
      cases before with
      | nil => simp [cutFirst?]
      | cons b before =>
        simp [cutFirst?]
        intro h _ h'
        exact absurd h h'
    · cases before with
      | nil =>
        simp [cutFirst?, hc]
        split <;> simp
      | cons b before =>
        have : cutFirst? sep (c :: cs) = some (b :: before, after) ↔
            b = c ∧ cutFirst? sep cs = some (before, after) := by
          simp only [cutFirst?, List.dropWhile_cons, List.takeWhile_cons]
          simp only [ne_eq, hc, not_false_eq_true, decide_true, if_true]
          split
          · simp
          · simp only [Option.some.injEq, Prod.mk.injEq, List.cons.injEq]
            constructor
            · rintro ⟨⟨rfl, h⟩, h'⟩; exact ⟨rfl, h, h'⟩
            · rintro ⟨rfl, h, h'⟩; exact ⟨⟨rfl, h⟩, h'⟩
        rw [this, ih]
        simp only [List.cons_append, List.cons.injEq, List.mem_cons, not_or]
        constructor
        · rintro ⟨rfl, h, h'⟩; exact ⟨⟨rfl, h⟩, fun e => hc e.symm, h'⟩
        · rintro ⟨⟨rfl, h⟩, _, h'⟩; exact ⟨rfl, h, h'⟩

theorem cutLast?_eq_some_iff {sep : Char} {cs before after : List Char} :
    cutLast? sep cs = some (before, after) ↔ cs = before ++ sep :: after ∧ sep ∉ after := by
  unfold cutLast?
  simp only [Option.map_eq_some_iff, Prod.exists, Prod.mk.injEq]
  constructor
  · rintro ⟨a, b, h, rfl, rfl⟩
    rw [cutFirst?_eq_some_iff] at h
    obtain ⟨h, ha⟩ := h
    refine ⟨?_, by simpa using ha⟩
    have := congrArg List.reverse h
    simpa using this
  · rintro ⟨rfl, ha⟩
    refine ⟨after.reverse, before.reverse, ?_, by simp, by simp⟩
    rw [cutFirst?_eq_some_iff]
    simpa using ha

end Text

end Apportion
