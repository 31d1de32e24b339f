/-
  What a cursor yields.

  * `next_of_lt`, `next_of_le`: one step from anywhere but the end.
  * `drainWithin_eq`: what is left, yielded one by one.
  * `drain_start`: a cursor at the start yields the references in order, with their indices.
-/
import Apportion.Cursor
import Mathlib.Data.List.Basic

namespace Apportion

namespace Cursor

variable {c : Cursor} {k : Nat}

theorem next_of_lt (hk : c.position.following = some k) (h : k < c.split.paths.length) :
    c.next = (some (k, c.split.paths[k]), { c with position := .on k }) := by
  simp only [next, advance, hk, h, if_true, current, List.getElem?_eq_getElem, Option.map_some]

theorem next_of_le (hk : c.position.following = some k) (h : c.split.paths.length ≤ k) :
    c.next = (none, { c with position := .exhausted }) := by
  simp only [next, advance, hk, Nat.not_lt.2 h, if_false]

/-- With enough fuel all that is left is yielded, one by one; with some to spare, the end is seen. -/
theorem drainWithin_eq {fuel : Nat} (hk : c.position.following = some k)
    (hle : k ≤ c.split.paths.length) (hfuel : c.split.paths.length ≤ fuel + k) :
    (c.drainWithin fuel).1 =
      (List.range' k (c.split.paths.length - k)).zip (c.split.paths.drop k) ∧
    (c.split.paths.length < fuel + k →
      (c.drainWithin fuel).2 = { c with position := .exhausted }) := by
  induction fuel generalizing c k with
  | zero =>
    have hend : c.split.paths.length = k := by omega
    rw [drainWithin, hend, Nat.sub_self]
    exact ⟨rfl, fun h => by omega⟩
  | succ fuel ih =>
    rw [drainWithin]
    rcases Nat.lt_or_eq_of_le hle with hlt | heq
    · obtain ⟨hitems, hend⟩ := ih (c := { c with position := .on k }) (k := k + 1) rfl hlt
        (by dsimp only; omega)
      have hcount : c.split.paths.length - k = c.split.paths.length - (k + 1) + 1 := by omega
      simp only [next_of_lt hk hlt, hitems]
      rw [List.drop_eq_getElem_cons hlt, hcount, List.range'_succ, List.zip_cons_cons]
      exact ⟨rfl, fun h => hend (by dsimp only; omega)⟩
    · simp only [next_of_le hk (Nat.le_of_eq heq.symm)]
      rw [heq, List.drop_length, List.zip_nil_right]
      exact ⟨rfl, fun _ => trivial⟩

/-- **A split is walked from its first reference to its last**, and the cursor is left exhausted. -/
theorem drain_start (s : Split) :
    (start s).drain = ((List.range s.paths.length).zip s.paths, ⟨s, .exhausted⟩) := by
  obtain ⟨hitems, hend⟩ := drainWithin_eq (c := start s) (k := 0) rfl (Nat.zero_le _)
    (Nat.le_succ s.paths.length)
  rw [List.range_eq_range']
  exact Prod.ext hitems (hend (Nat.lt_succ_self _))

end Cursor

end Apportion
