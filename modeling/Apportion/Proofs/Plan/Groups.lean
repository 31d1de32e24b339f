/-
  How a list falls into groups of one size.

  * `getElem?_groups`: the group at `k` holds the items from position `k * size` on.
  * `lt_length_groups_iff`: there is a group at `k` iff there is an item at `k * size`.
  * `groupSize_le_iff`: the group size is the least that the workers can take in all items.
-/
import Apportion.Plan.Grouping
import Mathlib.Data.List.Basic

namespace Apportion

namespace Plan

/-! ## Groups -/

section
variable {α : Type} {size : Nat}

theorem getElem?_groups (hs : 0 < size) (l : List α) (k : Nat) :
    (groups size l)[k]? =
      if k * size < l.length then some ((l.drop (k * size)).take size) else none := by
  induction l using groups.induct size generalizing k with
  | case1 => simp [groups]
  | case2 a as ih =>
    have hsize : size = size - 1 + 1 := by omega
    rw [groups]
    cases k with
    | zero =>
      simp only [List.getElem?_cons_zero, Nat.zero_mul, List.length_cons, Nat.zero_lt_succ, if_true,
        List.drop_zero]
      conv_rhs => rw [hsize, List.take_succ_cons]
    | succ k =>
      have hmul : (k + 1) * size = k * size + (size - 1) + 1 := by
        rw [Nat.succ_mul]; omega
      rw [List.getElem?_cons_succ, ih, hmul, List.drop_succ_cons, List.drop_drop,
        List.length_drop, List.length_cons, Nat.add_comm (size - 1)]
      congr 1
      exact propext ⟨fun h => by omega, fun h => by omega⟩

theorem lt_length_groups_iff (hs : 0 < size) {l : List α} {k : Nat} :
    k < (groups size l).length ↔ k * size < l.length := by
  have h := getElem?_groups hs l k
  constructor
  · intro hk
    rw [List.getElem?_eq_getElem hk] at h
    by_contra hn
    rw [if_neg hn] at h
    cases h
  · intro hk
    rw [if_pos hk] at h
    exact (List.getElem?_eq_some_iff.1 h).1

theorem getElem_groups (hs : 0 < size) {l : List α} {k : Nat} (hk : k < (groups size l).length) :
    (groups size l)[k] = (l.drop (k * size)).take size := by
  have h := getElem?_groups hs l k
  rw [if_pos ((lt_length_groups_iff hs).1 hk), List.getElem?_eq_getElem hk] at h
  exact Option.some.inj h

/-- No group is empty. -/
theorem ne_nil_of_mem_groups {l g : List α} (h : g ∈ groups size l) : g ≠ [] := by
  induction l using groups.induct size with
  | case1 => simp [groups] at h
  | case2 a as ih =>
    rw [groups] at h
    rcases List.mem_cons.1 h with rfl | h
    · exact List.cons_ne_nil _ _
    · exact ih h

/-- How many groups there are depends on the length of the list alone. -/
theorem length_groups_congr (hs : 0 < size) {β : Type} {l : List α} {m : List β}
    (h : l.length = m.length) : (groups size l).length = (groups size m).length := by
  have key : ∀ k, k < (groups size l).length ↔ k < (groups size m).length := by
    intro k
    rw [lt_length_groups_iff hs, lt_length_groups_iff hs, h]
  refine Nat.le_antisymm ?_ ?_
  · exact Nat.le_of_not_lt fun hlt => Nat.lt_irrefl _ ((key _).1 hlt)
  · exact Nat.le_of_not_lt fun hlt => Nat.lt_irrefl _ ((key _).2 hlt)

/-- There are at most `m` groups iff `m` of them can take in all items. -/
theorem length_groups_le_iff (hs : 0 < size) {l : List α} {m : Nat} :
    (groups size l).length ≤ m ↔ l.length ≤ m * size := by
  rw [← Nat.not_lt, lt_length_groups_iff hs, Nat.not_lt]

/-- Groups of one are as many as the items. -/
theorem length_groups_one (l : List α) : (groups 1 l).length = l.length := by
  refine Nat.le_antisymm ?_ ?_
  · exact (length_groups_le_iff Nat.one_pos).2 (Nat.le_of_eq (Nat.mul_one _).symm)
  · refine Nat.le_of_not_lt fun hlt => Nat.lt_irrefl (groups 1 l).length ?_
    rwa [lt_length_groups_iff Nat.one_pos, Nat.mul_one]

end

/-! ## The size of a group -/

/-- The number of groups there may be. -/
def workers (total : Nat) : Option UInt32 → Nat
  | some bound => max bound.toNat 1
  | none => max total 1

theorem workers_pos (total : Nat) (bound : Option UInt32) : 0 < workers total bound := by
  cases bound <;> simp only [workers] <;> omega

theorem groupSize_pos (total : Nat) (bound : Option UInt32) : 0 < groupSize total bound := by
  simp only [groupSize]; omega

/-- **The group size is the least one** with which no more groups are needed than there may be. -/
theorem groupSize_le_iff {total size : Nat} {bound : Option UInt32} (hs : 0 < size) :
    groupSize total bound ≤ size ↔ total ≤ workers total bound * size := by
  have hw := workers_pos total bound
  have heq : groupSize total bound =
      max ((total + workers total bound - 1) / workers total bound) 1 := by
    cases bound <;> rfl
  rw [heq, Nat.max_le, Nat.div_le_iff_le_mul hw, Nat.mul_comm size]
  constructor
  · rintro ⟨h, -⟩; omega
  · intro h; exact ⟨by omega, hs⟩

theorem groupSize_none {total : Nat} (h : 0 < total) : groupSize total none = 1 := by
  refine Nat.le_antisymm ?_ (groupSize_pos total none)
  rw [groupSize_le_iff Nat.one_pos, Nat.mul_one]
  simp only [workers]; omega

end Plan

end Apportion
