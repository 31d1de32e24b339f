/-
  Grouping: a list cut into pieces of one size, the last one shorter.

  * `groupSize total bound`: how many of `total` items go into a group if there
    may be at most `bound` groups.
  * `groups size l`: the groups.
  * `flatten_groups`: the groups, one after the other, are the list.
-/

namespace Apportion

namespace Plan

/-- The least number of items per group that leads to at most `bound` groups, of which there is
    at least one; single items if there is no bound. -/
def groupSize (total : Nat) (bound : Option UInt32) : Nat :=
  let workers := match bound with
    | some bound => max bound.toNat 1
    | none => max total 1
  max ((total + workers - 1) / workers) 1

/-- A list in groups of `size` items, at least one, of which the last may be shorter. -/
def groups {α : Type} (size : Nat) : List α → List (List α)
  | [] => []
  | a :: as => (a :: as.take (size - 1)) :: groups size (as.drop (size - 1))
termination_by l => l.length
decreasing_by
  simp only [List.length_drop, List.length_cons]
  omega

theorem flatten_groups {α : Type} (size : Nat) (l : List α) : (groups size l).flatten = l := by
  fun_induction groups size l with
  | case1 => rfl
  | case2 a as ih => simp [ih]

end Plan

end Apportion
