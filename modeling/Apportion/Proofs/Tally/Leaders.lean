/-
  Leaders: where the walk down a ranking stops.

  * `keptCount`: how many are kept, which the bytes alone decide.
  * `lt_of_mem_drop_keptCount`: who is left out holds less than everyone kept, so that no tie
    is cut.
  * `perm_keepLeading`: hence two rankings of the same hosts keep the same ones.
  * `perm_leaders`: tallies that hold the same have the same leaders, up to ties.
  * `filter_ranked`: hosts that hold the same are ranked in the order listed.
-/
import Apportion.Tally
import Mathlib.Data.List.Perm.Basic
import Mathlib.Data.List.Sort

namespace Apportion

namespace Tally

/-! ## The walk down a ranking -/

section
variable (least : Nat) (enough : UInt64 → Bool)

/-- How many hosts are kept from the top of a ranking in which they hold these bytes. -/
def keptCount : (kept : Nat) → (previous : Option UInt64) → List UInt64 → Nat
  | _, _, [] => 0
  | kept, previous, bytes :: rest =>
    if kept < least || previous = some bytes || enough bytes then
      keptCount (kept + 1) (some bytes) rest + 1
    else 0

theorem keepLeading_eq_take (l : List (String × UInt64)) (kept : Nat) (previous : Option UInt64) :
    keepLeading least enough kept previous l =
      l.take (keptCount least enough kept previous (l.map Prod.snd)) := by
  induction l generalizing kept previous with
  | nil => rfl
  | cons e l ih =>
    obtain ⟨host, bytes⟩ := e
    simp only [keepLeading, List.map_cons, keptCount]
    split
    · rw [ih, List.take_succ_cons]
    · rfl

/-- Who is left out holds less than everyone kept and than the one before. -/
theorem lt_of_mem_drop_keptCount {ws : List UInt64} (hws : ws.Pairwise fun a b => b ≤ a)
    (kept : Nat) {previous : Option UInt64} (hprev : ∀ p, previous = some p → ∀ w ∈ ws, w ≤ p)
    {v w : UInt64} (hw : w ∈ ws.drop (keptCount least enough kept previous ws))
    (hv : v ∈ ws.take (keptCount least enough kept previous ws) ∨ previous = some v) : w < v := by
  induction ws generalizing kept previous v with
  | nil => simp at hw
  | cons b ws ih =>
    obtain ⟨hb, htail⟩ := List.pairwise_cons.1 hws
    rw [keptCount] at hw hv
    split at hw
    · rename_i hkeep
      rw [if_pos hkeep, List.take_succ_cons] at hv
      rw [List.drop_succ_cons] at hw
      have hnext : ∀ p, some b = some p → ∀ w ∈ ws, w ≤ p := by
        rintro p ⟨⟩ w hw
        exact hb w hw
      rcases hv with hv | hv
      · rcases List.mem_cons.1 hv with rfl | hv
        · exact ih htail (kept + 1) hnext hw (Or.inr rfl)
        · exact ih htail (kept + 1) hnext hw (Or.inl hv)
      · have hwb : w < b := ih htail (kept + 1) hnext hw (Or.inr rfl)
        exact UInt64.lt_of_lt_of_le hwb (hprev v hv b (List.mem_cons_self ..))
    · rename_i hstop
      rw [if_neg hstop, List.take_zero] at hv
      rcases hv with hv | hv
      · simp at hv
      · -- the walk stops at `b`, which holds other than the one before
        have hvb : v ≠ b := by
          rintro rfl
          simp [hv] at hstop
        have hbv : b < v := UInt64.lt_of_le_of_ne (hprev v hv b (List.mem_cons_self ..)) hvb.symm
        rcases List.mem_cons.1 hw with rfl | hw
        · exact hbv
        · exact UInt64.lt_of_le_of_lt (hb w hw) hbv

end

/-! ## Two rankings of the same hosts -/

/-- A ranking: bytes never rise on the way down. -/
def Descending (l : List (String × UInt64)) : Prop := l.Pairwise fun a b => b.2 ≤ a.2

section
variable {l l' : List (String × UInt64)} (least : Nat) (enough : UInt64 → Bool)

theorem Descending.map_snd (h : Descending l) : (l.map Prod.snd).Pairwise fun a b => b ≤ a :=
  List.pairwise_map.2 h

/-- The bytes down two rankings of the same hosts are the same. -/
theorem Descending.map_snd_eq (h : Descending l) (h' : Descending l') (hp : l.Perm l') :
    l.map Prod.snd = l'.map Prod.snd :=
  (hp.map _).eq_of_pairwise (fun _ _ _ _ hab hba => UInt64.le_antisymm hba hab) h.map_snd h'.map_snd

/-- Whether one of these bytes is at most what a host holds. -/
def reaches (ws : List UInt64) (e : String × UInt64) : Bool := ws.any fun v => v ≤ e.2

/-- The front of a list, if it is set off by what hosts hold. -/
theorem take_eq_filter {n : Nat}
    (h : ∀ e ∈ l.drop n, ∀ v ∈ (l.map Prod.snd).take n, e.2 < v) :
    l.take n = l.filter (reaches ((l.map Prod.snd).take n)) := by
  have hfront : (l.take n).filter (reaches ((l.map Prod.snd).take n)) = l.take n := by
    refine List.filter_eq_self.2 fun e he => ?_
    refine List.any_eq_true.2 ⟨e.2, ?_, decide_eq_true (UInt64.le_refl e.2)⟩
    rw [← List.map_take]
    exact List.mem_map_of_mem he
  have hback : (l.drop n).filter (reaches ((l.map Prod.snd).take n)) = [] := by
    refine List.filter_eq_nil_iff.2 fun e he hany => ?_
    obtain ⟨v, hv, hle⟩ := List.any_eq_true.1 hany
    exact absurd (of_decide_eq_true hle) (UInt64.not_le.2 (h e he v hv))
  calc l.take n
      = (l.take n).filter (reaches ((l.map Prod.snd).take n)) ++
          (l.drop n).filter (reaches ((l.map Prod.snd).take n)) := by
        rw [hfront, hback, List.append_nil]
    _ = l.filter (reaches ((l.map Prod.snd).take n)) := by
        rw [← List.filter_append, List.take_append_drop]

/-- The hosts kept are those that hold as much as one of the bytes kept. -/
theorem Descending.keepLeading_eq_filter (h : Descending l) :
    keepLeading least enough 0 none l = l.filter (reaches ((l.map Prod.snd).take
      (keptCount least enough 0 none (l.map Prod.snd)))) := by
  rw [keepLeading_eq_take]
  refine take_eq_filter fun e he v hv => ?_
  have hnone : ∀ p, none = some p → ∀ w ∈ l.map Prod.snd, w ≤ p := by
    intro p hp
    cases hp
  refine lt_of_mem_drop_keptCount least enough h.map_snd 0 hnone ?_ (Or.inl hv)
  rw [← List.map_drop]
  exact List.mem_map_of_mem he

/-- **Two rankings of the same hosts keep the same ones.** -/
theorem perm_keepLeading (h : Descending l) (h' : Descending l') (hp : l.Perm l') :
    (keepLeading least enough 0 none l).Perm (keepLeading least enough 0 none l') := by
  rw [h.keepLeading_eq_filter, h'.keepLeading_eq_filter, ← h.map_snd_eq h' hp]
  exact hp.filter _

theorem map_snd_keepLeading (h : Descending l) (h' : Descending l') (hp : l.Perm l') :
    (keepLeading least enough 0 none l).map Prod.snd =
      (keepLeading least enough 0 none l').map Prod.snd := by
  simp only [keepLeading_eq_take, List.map_take, h.map_snd_eq h' hp]

end

/-! ## Two tallies that hold the same -/

theorem perm_ranked (t : Tally) : t.ranked.Perm t.shares.entries := List.mergeSort_perm _ _

theorem descending_ranked (t : Tally) : Descending t.ranked := by
  have h : t.ranked.Pairwise fun a b => decide (b.2 ≤ a.2) = true := by
    refine List.pairwise_mergeSort (fun a b c hab hbc => ?_) (fun a b => ?_) _
    · exact decide_eq_true
        (UInt64.le_trans (of_decide_eq_true hbc) (of_decide_eq_true hab))
    · simpa using UInt64.le_total b.2 a.2
  exact h.imp of_decide_eq_true

/-- Hosts that hold the same are ranked in the order listed. -/
theorem filter_ranked (t : Tally) (bytes : UInt64) :
    t.ranked.filter (·.2 = bytes) = t.shares.entries.filter (·.2 = bytes) := by
  have hequal : (t.shares.entries.filter (·.2 = bytes)).Pairwise fun a b =>
      decide (b.2 ≤ a.2) = true := by
    refine List.pairwise_of_forall_mem_list fun a ha b hb => decide_eq_true ?_
    rw [of_decide_eq_true (List.mem_filter.1 ha).2, of_decide_eq_true (List.mem_filter.1 hb).2]
    exact UInt64.le_refl bytes
  -- the ranking keeps the order of items that are in order already
  have hkept : (t.shares.entries.filter (·.2 = bytes)).Sublist t.ranked := by
    refine List.sublist_mergeSort (fun a b c hab hbc => ?_) (fun a b => ?_) hequal
      List.filter_sublist
    · exact decide_eq_true (UInt64.le_trans (of_decide_eq_true hbc) (of_decide_eq_true hab))
    · simpa using UInt64.le_total b.2 a.2
  have hall := hkept.filter fun e => decide (e.2 = bytes)
  rw [List.filter_filter] at hall
  simp only [Bool.and_self] at hall
  exact (hall.eq_of_length (t.perm_ranked.filter _).length_eq.symm).symm

theorem get?_of_mem_ranked {t : Tally} {e : String × UInt64} (h : e ∈ t.ranked) :
    t.get? e.1 = some e.2 :=
  mem_shares_iff.1 (t.perm_ranked.mem_iff.1 h)

theorem perm_ranked_of_get?_eq {t t' : Tally} (h : ∀ host, t.get? host = t'.get? host) :
    t.ranked.Perm t'.ranked := by
  refine t.perm_ranked.trans (List.Perm.trans ?_ t'.perm_ranked.symm)
  rw [List.perm_ext_iff_of_nodup t.shares.distinct.of_map t'.shares.distinct.of_map]
  rintro ⟨host, bytes⟩
  rw [mem_shares_iff, mem_shares_iff, h host]

theorem map_get?_leaders (t : Tally) (least : Nat) (threshold : Float) :
    (t.leaders least threshold).map t.get? =
      ((keepLeading least (t.dominates threshold) 0 none t.ranked).map Prod.snd).map some := by
  rw [leaders, List.map_map, List.map_map]
  refine List.map_congr_left fun e he => get?_of_mem_ranked ?_
  rw [keepLeading_eq_take] at he
  exact List.mem_of_mem_take he

/-- **Tallies that hold the same have the same leaders**, and the same bytes down the list. -/
theorem perm_leaders {t t' : Tally} (htotal : t.total = t'.total)
    (h : ∀ host, t.get? host = t'.get? host) (least : Nat) (threshold : Float) :
    (t.leaders least threshold).Perm (t'.leaders least threshold) ∧
      (t.leaders least threshold).map t.get? = (t'.leaders least threshold).map t'.get? := by
  have henough : t.dominates threshold = t'.dominates threshold := by
    funext bytes
    simp only [dominates, htotal]
  have hp := perm_ranked_of_get?_eq h
  refine ⟨?_, ?_⟩
  · rw [leaders, leaders, henough]
    exact (perm_keepLeading least _ t.descending_ranked t'.descending_ranked hp).map _
  · rw [map_get?_leaders, map_get?_leaders, henough,
      map_snd_keepLeading least _ t.descending_ranked t'.descending_ranked hp]

end Tally

end Apportion
