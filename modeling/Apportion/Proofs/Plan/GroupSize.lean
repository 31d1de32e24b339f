/-
  The group size against all other ways of cutting a list.

  * `exists_groupSize_le`: whatever the groups, if there are no more than there may be, one of them is
    as large as the group size.
  * `length_of_mem_dropLast_groups`: every group but the last one is full.
  * `length_groups_anti`, `groupSize_anti`: larger groups are fewer, and more workers take smaller ones.
  * `groupSize_best`: all this, and how the number of groups grows with the number of workers.
-/
import Apportion.Proofs.Plan.Groups
import Mathlib.Algebra.Group.Action.Defs
import Mathlib.Algebra.Order.BigOperators.Group.List
import Mathlib.Algebra.Order.Group.Nat

namespace Apportion

namespace Plan

variable {α : Type} {l : List α} {size size' : Nat} {bound bound' : Option UInt32}

/-! ## Any way of cutting a list -/

/-- Parts of at most `size` items cover no more than so many of them each. -/
theorem length_flatten_le {parts : List (List α)} (h : ∀ part ∈ parts, part.length ≤ size) :
    parts.flatten.length ≤ parts.length * size := by
  have hsum : (parts.map List.length).sum ≤ (parts.map List.length).length • size :=
    List.sum_le_card_nsmul _ _ (List.forall_mem_map.2 h)
  rwa [List.length_map, smul_eq_mul, ← List.length_flatten] at hsum

/-- If no more groups are made than there may be, one of them has as many items as the group size. -/
theorem exists_groupSize_le (hl : l ≠ []) {parts : List (List α)} (hparts : parts.flatten = l)
    (hcount : parts.length ≤ workers l.length bound) :
    ∃ part ∈ parts, groupSize l.length bound ≤ part.length := by
  have hpos := List.length_pos_iff.2 hl
  by_contra hsmall
  push Not at hsmall
  -- otherwise groups of one item less would do as well
  have hcover := length_flatten_le fun part hpart => Nat.le_sub_one_of_lt (hsmall part hpart)
  rw [hparts] at hcover
  have hless : l.length ≤ workers l.length bound * (groupSize l.length bound - 1) :=
    hcover.trans (Nat.mul_le_mul_right _ hcount)
  have hne : 0 < groupSize l.length bound - 1 := Nat.pos_of_ne_zero fun hzero => by
    rw [hzero, Nat.mul_zero] at hless
    omega
  have hleast := (groupSize_le_iff hne).2 hless
  omega

/-! ## The groups of one size -/

/-- A group with another one behind it is full. -/
theorem length_of_mem_dropLast_groups (hs : 0 < size) {group : List α}
    (h : group ∈ (groups size l).dropLast) : group.length = size := by
  obtain ⟨k, hk, rfl⟩ := List.getElem_of_mem h
  rw [List.length_dropLast] at hk
  have hnext := (lt_length_groups_iff hs).1 (Nat.add_lt_of_lt_sub hk)
  rw [Nat.succ_mul] at hnext
  rw [List.getElem_dropLast, getElem_groups hs, List.length_take, List.length_drop]
  omega

/-- Larger groups are fewer. -/
theorem length_groups_anti (hs : 0 < size) (h : size ≤ size') (l : List α) :
    (groups size' l).length ≤ (groups size l).length := by
  rw [length_groups_le_iff (hs.trans_le h)]
  exact ((length_groups_le_iff hs).1 (Nat.le_refl _)).trans (Nat.mul_le_mul_left _ h)

/-- More workers take smaller groups. -/
theorem groupSize_anti {total : Nat} (h : workers total bound ≤ workers total bound') :
    groupSize total bound' ≤ groupSize total bound := by
  have hs := groupSize_pos total bound
  rw [groupSize_le_iff hs]
  exact ((groupSize_le_iff hs).1 (Nat.le_refl _)).trans (Nat.mul_le_mul_right _ h)

/-- As many workers as items take single items. -/
theorem groupSize_eq_one {total : Nat} (h : total ≤ workers total bound) :
    groupSize total bound = 1 := by
  refine Nat.le_antisymm ?_ (groupSize_pos total bound)
  rwa [groupSize_le_iff Nat.one_pos, Nat.mul_one]

/-- **The group size is the best one.**  With it there are no more groups than there may be, all of
    them full but the last one; and in whatever other way the items are cut, in order, into no
    more groups than that, one of the groups is as large.  The number of groups never falls when
    the bound rises, and from a bound of as many as there are items on, and with no bound at all,
    every item has a group of its own. -/
theorem groupSize_best (hl : l ≠ []) (bound : Option UInt32) :
    1 ≤ groupSize l.length bound ∧
    let most := bound.elim l.length fun w => max w.toNat 1
    let count (bound : Option UInt32) := (groups (groupSize l.length bound) l).length
    count bound ≤ most ∧
    (∀ parts : List (List α), parts.flatten = l → parts.length ≤ most →
      ∃ part ∈ parts, groupSize l.length bound ≤ part.length) ∧
    (∀ group ∈ (groups (groupSize l.length bound) l).dropLast,
      group.length = groupSize l.length bound) ∧
    (∀ w w' : UInt32, w ≤ w' → count (some w) ≤ count (some w')) ∧
    (∀ w : UInt32, l.length ≤ w.toNat → count (some w) = l.length) ∧
    count none = l.length := by
  have hs := groupSize_pos l.length
  refine ⟨hs bound, ?_⟩
  intro most count
  have hpos := List.length_pos_iff.2 hl
  have hmost : most = workers l.length bound := by
    cases bound with
    | none => exact (Nat.max_eq_left hpos).symm
    | some w => rfl
  have hsingle (bound) (h : l.length ≤ workers l.length bound) : count bound = l.length := by
    change (groups _ l).length = _
    rw [groupSize_eq_one h, length_groups_one]
  refine ⟨?_, fun parts hparts hcount => ?_, fun group => ?_, fun w w' hw => ?_,
    fun w hw => ?_, ?_⟩
  · rw [hmost]
    exact (length_groups_le_iff (hs bound)).2 ((groupSize_le_iff (hs bound)).1 (Nat.le_refl _))
  · exact exists_groupSize_le hl hparts (hmost ▸ hcount)
  · exact length_of_mem_dropLast_groups (hs bound)
  · have hworkers : workers l.length (some w) ≤ workers l.length (some w') :=
      max_le_max_right 1 (UInt32.le_iff_toNat_le.1 hw)
    exact length_groups_anti (hs _) (groupSize_anti hworkers) l
  · exact hsingle (some w) (hw.trans (Nat.le_max_left _ _))
  · exact hsingle none (Nat.le_max_left _ _)

/-- Seven items for at most three workers: groups of three, and none of fewer would do. -/
theorem groupSize_best_seven :
    let l := [0, 1, 2, 3, 4, 5, 6]
    l ≠ [] ∧ groupSize l.length (some 3) = 3 ∧ groups 3 l = [[0, 1, 2], [3, 4, 5], [6]] ∧
      ∀ parts : List (List Nat), parts.flatten = l → parts.length ≤ 3 →
        ∃ part ∈ parts, 3 ≤ part.length := by
  intro l
  have hl : l ≠ [] := by decide
  have hsize : groupSize l.length (some 3) = 3 := by decide
  obtain ⟨-, -, hparts, -⟩ := groupSize_best hl (some 3)
  rw [hsize] at hparts
  exact ⟨hl, hsize, by simp [l, groups], hparts⟩

end Plan

end Apportion
