/-
  The items of a list, each once, in the order in which they first occur.

  * `FirstOccurrences l firsts`: the order, said without the way it is found.
  * `firstOccurrences_eraseDups`: dropping later repetitions leads to it.
  * `eraseDups_append_congr`, `eraseDups_flatMap_congr`: it is found piece by piece.
  * `FirstOccurrences.unique`: there is one such order.
-/
import Mathlib.Data.List.Basic
import Mathlib.Data.List.Perm.Subperm

namespace Apportion

/-- `firsts` are the items of `l`, each once, in the order in which they first occur there. -/
structure FirstOccurrences {α : Type} [DecidableEq α] (l firsts : List α) : Prop where
  distinct : firsts.Nodup
  mem_iff : ∀ a, a ∈ firsts ↔ a ∈ l
  ordered : firsts.Pairwise fun a b => l.idxOf a < l.idxOf b

section
variable {α : Type} [DecidableEq α]

theorem idxOf_lt_of_filter {p : α → Bool} {a b : α} (ha : p a) (hb : p b) {l : List α}
    (h : (l.filter p).idxOf a < (l.filter p).idxOf b) : l.idxOf a < l.idxOf b := by
  induction l with
  | nil => simp at h
  | cons c l ih =>
    by_cases hc : p c
    · rw [List.filter_cons_of_pos hc] at h
      by_cases hcb : c = b
      · subst hcb; rw [List.idxOf_cons_self] at h; exact absurd h (Nat.not_lt_zero _)
      · rw [List.idxOf_cons_ne _ hcb] at h ⊢
        by_cases hca : c = a
        · subst hca; rw [List.idxOf_cons_self]; exact Nat.succ_pos _
        · rw [List.idxOf_cons_ne _ hca] at h ⊢
          exact Nat.succ_lt_succ (ih (Nat.lt_of_succ_lt_succ h))
    · have hca : c ≠ a := fun e => hc (e ▸ ha)
      have hcb : c ≠ b := fun e => hc (e ▸ hb)
      rw [List.filter_cons_of_neg hc] at h
      rw [List.idxOf_cons_ne _ hca, List.idxOf_cons_ne _ hcb]
      exact Nat.succ_lt_succ (ih h)

theorem pairwise_idxOf_eraseDups (l : List α) :
    l.eraseDups.Pairwise fun a b => l.idxOf a < l.idxOf b := by
  match l with
  | [] => simp
  | a :: as =>
    rw [List.eraseDups_cons, List.pairwise_cons]
    have hne : ∀ b, b ∈ (as.filter fun b => !b == a).eraseDups → a ≠ b := by
      intro b hb
      have := (List.mem_filter.1 (List.mem_eraseDups.1 hb)).2
      exact fun e => by simp [e] at this
    refine ⟨fun b hb => ?_, ?_⟩
    · rw [List.idxOf_cons_self, List.idxOf_cons_ne _ (hne b hb)]
      exact Nat.succ_pos _
    · refine (pairwise_idxOf_eraseDups (as.filter fun b => !b == a)).imp_of_mem ?_
      intro b c hb hc h
      rw [List.idxOf_cons_ne _ (hne b hb), List.idxOf_cons_ne _ (hne c hc)]
      refine Nat.succ_lt_succ (idxOf_lt_of_filter ?_ ?_ h)
      · simpa using (hne b hb).symm
      · simpa using (hne c hc).symm
termination_by l.length
decreasing_by
  have := List.length_filter_le (fun b => !b == a) as
  simp only [List.length_cons]
  omega

/-- Dropping later repetitions keeps the first occurrences. -/
theorem firstOccurrences_eraseDups (l : List α) : FirstOccurrences l l.eraseDups where
  distinct := (pairwise_idxOf_eraseDups l).imp fun h e => by subst e; exact Nat.lt_irrefl _ h
  mem_iff _ := List.mem_eraseDups
  ordered := pairwise_idxOf_eraseDups l

theorem eraseDups_of_nodup {l : List α} (h : l.Nodup) : l.eraseDups = l := by
  induction l with
  | nil => rfl
  | cons a l ih =>
    obtain ⟨ha, hl⟩ := List.nodup_cons.1 h
    have hall : ∀ b ∈ l, (!b == a) = true := by
      intro b hb
      simpa using ne_of_mem_of_not_mem hb ha
    rw [List.eraseDups_cons, List.filter_eq_self.2 hall, ih hl]

/-- Dropping items and dropping later repetitions can be exchanged. -/
theorem eraseDups_filter (p : α → Bool) (l : List α) :
    (l.filter p).eraseDups = l.eraseDups.filter p := by
  match l with
  | [] => rfl
  | a :: as =>
    have ih := eraseDups_filter p (as.filter fun b => !b == a)
    by_cases ha : p a
    · rw [List.filter_cons_of_pos ha, List.eraseDups_cons, List.eraseDups_cons,
        List.filter_cons_of_pos ha, ← ih, List.filter_filter, List.filter_filter]
      simp only [Bool.and_comm]
    · -- what `p` keeps is not `a` anyway
      have hkept : ∀ b ∈ as, (p b && !b == a) = p b := by
        intro b _
        by_cases hb : b = a
        · subst hb; simp [ha]
        · simp [hb]
      rw [List.filter_cons_of_neg ha, List.eraseDups_cons, List.filter_cons_of_neg ha, ← ih,
        List.filter_filter, List.filter_congr hkept]
termination_by l.length
decreasing_by
  have := List.length_filter_le (fun b => !b == a) as
  simp only [List.length_cons]
  omega

theorem eraseDups_append_of_subset {l l' : List α} (h : ∀ a ∈ l', a ∈ l) :
    (l ++ l').eraseDups = l.eraseDups := by
  have hnone : l'.removeAll l = [] :=
    List.filter_eq_nil_iff.2 fun a ha => by simpa using h a ha
  rw [List.eraseDups_append, hnone, List.eraseDups_nil, List.append_nil]

/-- First occurrences are found piece by piece. -/
theorem eraseDups_append_congr {l l' m m' : List α} (hl : l.eraseDups = l'.eraseDups)
    (hm : m.eraseDups = m'.eraseDups) : (l ++ m).eraseDups = (l' ++ m').eraseDups := by
  have hmem : ∀ a, a ∈ l ↔ a ∈ l' := fun a => by
    rw [← List.mem_eraseDups, hl, List.mem_eraseDups]
  have hnew : (fun a => !l.elem a) = fun a => !l'.elem a := by
    funext a
    simp [hmem]
  simp only [List.eraseDups_append, List.removeAll, eraseDups_filter, hl, hm, hnew]

theorem eraseDups_flatMap_congr {β : Type} {l : List β} {f g : β → List α}
    (h : ∀ b ∈ l, (f b).eraseDups = (g b).eraseDups) :
    (l.flatMap f).eraseDups = (l.flatMap g).eraseDups := by
  induction l with
  | nil => rfl
  | cons b l ih =>
    obtain ⟨hb, hl⟩ := List.forall_mem_cons.1 h
    exact eraseDups_append_congr hb (ih hl)

/-- Pieces of which each has the same first occurrences, or none at all. -/
theorem eraseDups_flatMap_ite {β : Type} {p : β → Prop} [DecidablePred p] {firsts : List α}
    {f : β → List α} {l : List β}
    (h : ∀ b ∈ l, (f b).eraseDups = if p b then [] else firsts.eraseDups) :
    (l.flatMap f).eraseDups = if ∀ b ∈ l, p b then [] else firsts.eraseDups := by
  induction l with
  | nil => rfl
  | cons b l ih =>
    obtain ⟨hb, hl⟩ := List.forall_mem_cons.1 h
    have ih := ih hl
    rw [List.flatMap_cons]
    by_cases hp : p b
    · rw [if_pos hp] at hb
      simp only [List.forall_mem_cons, hp, true_and]
      rw [← ih]
      have hfront : (f b).eraseDups = ([] : List α).eraseDups := hb
      exact eraseDups_append_congr hfront rfl
    · rw [if_neg hp] at hb
      simp only [List.forall_mem_cons, hp, false_and, if_false]
      rw [← hb]
      refine eraseDups_append_of_subset fun a ha => ?_
      -- what comes up behind has come up already
      rw [← List.mem_eraseDups, ih] at ha
      rw [← List.mem_eraseDups, hb]
      split at ha
      · cases ha
      · exact ha

/-- A list has one order of first occurrences. -/
theorem FirstOccurrences.unique {l firsts firsts' : List α} (h : FirstOccurrences l firsts)
    (h' : FirstOccurrences l firsts') : firsts = firsts' := by
  have hperm : firsts.Perm firsts' :=
    (List.perm_ext_iff_of_nodup h.distinct h'.distinct).2 fun a =>
      (h.mem_iff a).trans (h'.mem_iff a).symm
  exact hperm.eq_of_pairwise (fun _ _ _ _ hab hba => absurd hab (Nat.lt_asymm hba)) h.ordered
    h'.ordered

/-- The first occurrences are some of the items. -/
theorem FirstOccurrences.subperm {l firsts : List α} (h : FirstOccurrences l firsts) :
    firsts.Subperm l :=
  List.subperm_of_subset h.distinct fun a ha => (h.mem_iff a).1 ha

end

end Apportion
