/-
  Leaders by rank: which hosts are named, told without the walk down the ranking.

  * `lt_keptCount_of_least_le`, `lt_keptCount_add`: how far a walk gets that has kept enough hosts
    already, and one that has not.
  * `lt_keptCount_iff`: hence whether the host of a rank is kept.
  * `Worthy`: among the least number, or with a large enough share, or level with the last of the
    least number.
  * `dominates_of_le`: who holds more passes the test of a share.
  * `Worthy.of_le`, `Worthy.of_least_le`, `Worthy.of_threshold_le`: what leaves a host worthy.
  * `leaders_iff_worthy`: the leaders are the worthy ones, and what follows from that.
-/
import Apportion.Proofs.Double.Order
import Apportion.Proofs.Tally.Leaders

namespace Apportion

namespace Tally

/-- In a list without repeats, the place of a member tells whether it is in the front. -/
theorem mem_take_iff_lt {α : Type} {l : List α} (h : l.Nodup) {i n : Nat} {a : α}
    (hi : l[i]? = some a) : a ∈ l.take n ↔ i < n := by
  obtain ⟨hlen, rfl⟩ := List.getElem?_eq_some_iff.1 hi
  rw [List.mem_take_iff_getElem]
  constructor
  · rintro ⟨j, hj, heq⟩
    obtain rfl := h.getElem_inj_iff.1 heq
    exact (Nat.lt_min.1 hj).1
  · intro hn
    exact ⟨i, Nat.lt_min.2 ⟨hn, hlen⟩, rfl⟩

/-! ## How far the walk gets -/

section
variable {least : Nat} {enough : UInt64 → Bool} {ws : List UInt64}

/-- With enough hosts kept, the walk goes on through those that hold as much as the one before it
    and those that hold enough. -/
theorem lt_keptCount_of_least_le (henough : ∀ v w, v ≤ w → enough v → enough w)
    (hws : ws.Pairwise fun a b => b ≤ a) {kept : Nat} (hkept : least ≤ kept)
    {previous : Option UInt64} (hprev : ∀ p, previous = some p → ∀ w ∈ ws, w ≤ p) (i : Nat) :
    i < keptCount least enough kept previous ws ↔
      ∃ w, ws[i]? = some w ∧ (previous = some w ∨ enough w) := by
  induction ws generalizing kept previous i with
  | nil => simp [keptCount]
  | cons b ws ih =>
    obtain ⟨hb, htail⟩ := List.pairwise_cons.1 hws
    have hnext : ∀ p, some b = some p → ∀ w ∈ ws, w ≤ p := by
      rintro p ⟨⟩ w hw
      exact hb w hw
    -- whoever is level with the one before is level with `b`, too
    have hlevel : ∀ w ∈ ws, previous = some w → w = b := fun w hw hp =>
      UInt64.le_antisymm (hb w hw) (hprev w hp b (List.mem_cons_self ..))
    rw [keptCount]
    by_cases hkeep : previous = some b ∨ enough b
    · rw [if_pos (by simpa [Nat.not_lt.2 hkept] using hkeep)]
      cases i with
      | zero => simpa using hkeep
      | succ i =>
        rw [Nat.add_lt_add_iff_right, ih htail (Nat.le_succ_of_le hkept) hnext,
          List.getElem?_cons_succ]
        refine exists_congr fun w => and_congr_right fun hw => ?_
        constructor
        · rintro (heq | hw)
          · obtain rfl := Option.some.inj heq
            exact hkeep
          · exact Or.inr hw
        · rintro (hp | hw')
          · rw [hlevel w (List.mem_of_getElem? hw) hp]
            exact Or.inl rfl
          · exact Or.inr hw'
    · rw [if_neg (by simpa [Nat.not_lt.2 hkept] using hkeep)]
      refine iff_of_false (Nat.not_lt_zero i) ?_
      rintro ⟨w, hw, hw'⟩
      cases i with
      | zero =>
        obtain rfl := Option.some.inj hw
        exact hkeep hw'
      | succ i =>
        have hmem : w ∈ ws := List.mem_of_getElem? hw
        rcases hw' with hp | hw'
        · exact hkeep (Or.inl (hlevel w hmem hp ▸ hp))
        · exact hkeep (Or.inr (henough w b (hb w hmem) hw'))

/-- The walk that wants `n + 1` hosts more: it gets them, goes on through those that are level with
    the last of them, and through those that hold enough. -/
theorem lt_keptCount_add (henough : ∀ v w, v ≤ w → enough v → enough w)
    (hws : ws.Pairwise fun a b => b ≤ a) (kept : Nat) (previous : Option UInt64) (n i : Nat) :
    i < keptCount (kept + n + 1) enough kept previous ws ↔
      ∃ w, ws[i]? = some w ∧ (i ≤ n ∨ enough w ∨ ws[n]? = some w) := by
  induction ws generalizing kept previous n i with
  | nil => simp [keptCount]
  | cons b ws ih =>
    obtain ⟨hb, htail⟩ := List.pairwise_cons.1 hws
    have hkeep :
        (decide (kept < kept + n + 1) || decide (previous = some b) || enough b) = true := by
      simp [Nat.lt_succ_of_le (Nat.le_add_right kept n)]
    rw [keptCount, if_pos hkeep]
    cases i with
    | zero => simp
    | succ i =>
      rw [Nat.add_lt_add_iff_right, List.getElem?_cons_succ]
      cases n with
      | zero =>
        have hnext : ∀ p, some b = some p → ∀ w ∈ ws, w ≤ p := by
          rintro p ⟨⟩ w hw
          exact hb w hw
        rw [lt_keptCount_of_least_le henough htail (Nat.le_refl _) hnext]
        simp [or_comm]
      | succ n =>
        have hleast : kept + (n + 1) + 1 = kept + 1 + n + 1 := by omega
        rw [hleast, ih htail (kept + 1) (some b) n i, List.getElem?_cons_succ,
          Nat.add_le_add_iff_right]

/-- **Whether the host of a rank is kept.** -/
theorem lt_keptCount_iff (henough : ∀ v w, v ≤ w → enough v → enough w)
    (hws : ws.Pairwise fun a b => b ≤ a) (i : Nat) :
    i < keptCount least enough 0 none ws ↔
      ∃ w, ws[i]? = some w ∧ (i < least ∨ enough w ∨ 0 < least ∧ ws[least - 1]? = some w) := by
  cases least with
  | zero =>
    have hnone : ∀ p, none = some p → ∀ w ∈ ws, w ≤ p := by
      rintro p ⟨⟩
    rw [lt_keptCount_of_least_le henough hws (Nat.le_refl 0) hnone]
    simp
  | succ n =>
    have h := lt_keptCount_add henough hws 0 none n i
    rw [Nat.zero_add] at h
    simpa [Nat.lt_succ_iff] using h

end

/-! ## The test of a share -/

section
variable {t : Tally} {threshold : Float} {bytes : UInt64}

theorem dominates_iff : t.dominates threshold bytes = true ↔
    t.total ≠ 0 ∧ threshold ≤ bytes.toFloat / t.total.toFloat := by
  rw [dominates, Bool.and_eq_true, decide_eq_true_iff, decide_eq_true_iff]

/-- Who holds more passes the test. -/
theorem dominates_of_le {more : UInt64} (h : bytes ≤ more)
    (hbytes : t.dominates threshold bytes = true) : t.dominates threshold more = true := by
  rw [dominates_iff] at *
  exact ⟨hbytes.1, Double.le_trans hbytes.2 (Double.toFloat_div_le_toFloat_div h hbytes.1)⟩

end

/-! ## Leaders -/

/-- Whether the host at rank `i`, which holds `bytes`, is to be named: it is among the first
    `least`, or has a share of at least `threshold`, or is level with the last of the first
    `least`. -/
def Worthy (t : Tally) (least : Nat) (threshold : Float) (i : Nat) (bytes : UInt64) : Prop :=
  i < least ∨
  (t.total ≠ 0 ∧ threshold ≤ bytes.toFloat / t.total.toFloat) ∨
  (0 < least ∧ (t.ranked[least - 1]?).map Prod.snd = some bytes)

section
variable (t : Tally) (least : Nat) (threshold : Float)

/-- How many hosts are named. -/
def leading : Nat := keptCount least (t.dominates threshold) 0 none (t.ranked.map Prod.snd)

theorem leaders_eq_take : t.leaders least threshold =
    (t.ranked.map Prod.fst).take (t.leading least threshold) := by
  rw [leaders, keepLeading_eq_take, List.map_take]
  rfl

theorem lt_leading_iff (i : Nat) : i < t.leading least threshold ↔
    ∃ e, t.ranked[i]? = some e ∧ t.Worthy least threshold i e.2 := by
  rw [leading, lt_keptCount_iff (fun _ _ => dominates_of_le) t.descending_ranked.map_snd]
  simp only [List.getElem?_map, Option.map_eq_some_iff, Worthy, dominates_iff]
  constructor
  · rintro ⟨w, ⟨e, he, rfl⟩, hw⟩
    exact ⟨e, he, hw⟩
  · rintro ⟨e, he, hw⟩
    exact ⟨e.2, ⟨e, he, rfl⟩, hw⟩

theorem nodup_map_fst_ranked : (t.ranked.map Prod.fst).Nodup :=
  ((t.perm_ranked.map Prod.fst).nodup_iff).2 t.shares.distinct

theorem length_ranked : t.ranked.length = t.size := t.perm_ranked.length_eq

variable {t least threshold}

theorem mem_leaders_iff {i : Nat} {e : String × UInt64} (h : t.ranked[i]? = some e) :
    e.1 ∈ t.leaders least threshold ↔ t.Worthy least threshold i e.2 := by
  have hfst : (t.ranked.map Prod.fst)[i]? = some e.1 := by
    rw [List.getElem?_map, h, Option.map_some]
  have hlead : i < t.leading least threshold ↔ t.Worthy least threshold i e.2 := by
    rw [lt_leading_iff]
    simp [h]
  rw [leaders_eq_take, mem_take_iff_lt t.nodup_map_fst_ranked hfst, hlead]

/-- Every host has a rank. -/
theorem exists_rank {host : String} {bytes : UInt64} (h : t.get? host = some bytes) :
    ∃ i : Nat, t.ranked[i]? = some (host, bytes) :=
  List.mem_iff_getElem?.1 (t.perm_ranked.mem_iff.2 (mem_shares_iff.2 h))

theorem exists_get?_of_mem_leaders {host : String} (h : host ∈ t.leaders least threshold) :
    ∃ bytes, t.get? host = some bytes := by
  rw [leaders_eq_take] at h
  obtain ⟨e, he, rfl⟩ := List.mem_map.1 (List.mem_of_mem_take h)
  exact ⟨e.2, get?_of_mem_ranked he⟩

theorem Descending.le {l : List (String × UInt64)} (h : Descending l) {i j : Nat} (hij : i ≤ j)
    {a b : String × UInt64} (ha : l[i]? = some a) (hb : l[j]? = some b) : b.2 ≤ a.2 := by
  obtain ⟨hi, rfl⟩ := List.getElem?_eq_some_iff.1 ha
  obtain ⟨hj, rfl⟩ := List.getElem?_eq_some_iff.1 hb
  rcases Nat.lt_or_eq_of_le hij with hlt | rfl
  · exact List.pairwise_iff_getElem.1 h i j hi hj hlt
  · exact UInt64.le_refl _

/-- Who holds as much as someone worthy is worthy. -/
theorem Worthy.of_le {i j : Nat} {a b : String × UInt64} (ha : t.ranked[i]? = some a)
    (hb : t.ranked[j]? = some b) (hle : a.2 ≤ b.2) (h : t.Worthy least threshold i a.2) :
    t.Worthy least threshold j b.2 := by
  by_cases hj : j < least
  · exact Or.inl hj
  -- with `b` beyond the first `least`, it is level with the last of them if it holds as much
  have hlevel : 0 < least → (∀ last, t.ranked[least - 1]? = some last → last.2 ≤ a.2) →
      t.Worthy least threshold j b.2 := by
    intro hpos hlast
    obtain ⟨hjlen, -⟩ := List.getElem?_eq_some_iff.1 hb
    obtain ⟨last, hget⟩ : ∃ last, t.ranked[least - 1]? = some last :=
      ⟨_, List.getElem?_eq_getElem (by omega)⟩
    refine Or.inr (Or.inr ⟨hpos, ?_⟩)
    rw [hget, Option.map_some, UInt64.le_antisymm (UInt64.le_trans (hlast last hget) hle)
      (t.descending_ranked.le (by omega) hget hb)]
  rcases h with hi | hshare | ⟨hpos, hlast⟩
  · exact hlevel (by omega) fun last hget => t.descending_ranked.le (by omega) ha hget
  · exact Or.inr (Or.inl (dominates_iff.1 (dominates_of_le hle (dominates_iff.2 hshare))))
  · refine hlevel hpos fun last hget => ?_
    rw [hget] at hlast
    exact (Option.some.inj hlast) ▸ UInt64.le_refl _

/-- Who is worthy stays so when more hosts are wanted. -/
theorem Worthy.of_least_le {more i : Nat} {e : String × UInt64} (hmore : least ≤ more)
    (he : t.ranked[i]? = some e) (h : t.Worthy least threshold i e.2) :
    t.Worthy more threshold i e.2 := by
  rcases h with hi | hshare | ⟨hpos, hlast⟩
  · exact Or.inl (Nat.lt_of_lt_of_le hi hmore)
  · exact Or.inr (Or.inl hshare)
  · obtain ⟨last, hget, heq⟩ := Option.map_eq_some_iff.1 hlast
    have hworthy : t.Worthy more threshold (least - 1) last.2 := Or.inl (by omega)
    exact hworthy.of_le hget he (heq ▸ UInt64.le_refl _)

theorem Worthy.of_threshold_le {lower : Float} {i : Nat} {bytes : UInt64}
    (hlower : lower ≤ threshold) (h : t.Worthy least threshold i bytes) :
    t.Worthy least lower i bytes :=
  h.imp_right (Or.imp_left fun hshare => ⟨hshare.1, Double.le_trans hlower hshare.2⟩)

theorem mem_leaders_of_get?_eq {host other : String} (h : t.get? host = t.get? other)
    (hhost : host ∈ t.leaders least threshold) : other ∈ t.leaders least threshold := by
  obtain ⟨bytes, hbytes⟩ := exists_get?_of_mem_leaders hhost
  obtain ⟨i, hi⟩ := exists_rank hbytes
  obtain ⟨j, hj⟩ := exists_rank (h ▸ hbytes)
  exact (mem_leaders_iff hj).2 (((mem_leaders_iff hi).1 hhost).of_le hi hj (UInt64.le_refl bytes))

theorem min_le_leading (t : Tally) (least : Nat) (threshold : Float) :
    min least t.size ≤ t.leading least threshold := by
  by_contra hlt
  obtain ⟨hleast, hsize⟩ := Nat.lt_min.1 (Nat.not_le.1 hlt)
  rw [← length_ranked] at hsize
  exact Nat.lt_irrefl _ ((lt_leading_iff t least threshold _).2
    ⟨_, List.getElem?_eq_getElem hsize, Or.inl hleast⟩)

/-- Where more hosts are worthy, more are named. -/
theorem leaders_prefix_of_worthy {least' : Nat} {threshold' : Float}
    (h : ∀ (i : Nat) e, t.ranked[i]? = some e → t.Worthy least threshold i e.2 →
      t.Worthy least' threshold' i e.2) :
    t.leaders least threshold <+: t.leaders least' threshold' := by
  rw [leaders_eq_take, leaders_eq_take]
  refine List.take_prefix_take_left ?_
  by_contra hlt
  obtain ⟨e, he, hworthy⟩ := (lt_leading_iff t least threshold _).1 (Nat.not_le.1 hlt)
  exact Nat.lt_irrefl _ ((lt_leading_iff t least' threshold' _).2 ⟨e, he, h _ e he hworthy⟩)

/-- **The leaders, without the walk**: they are a front of the ranking by bytes, most first and
    equals in the order listed, and the host of a rank is among them exactly if it is worthy. So

    * as many hosts are named as are wanted and there are;
    * no host is missed that has a large enough share;
    * hosts that hold the same are named together;
    * nobody is left out by wanting more hosts, or by a lower threshold. -/
theorem leaders_iff_worthy (t : Tally) (least : Nat) (threshold : Float) :
    t.ranked.Perm t.shares.entries ∧ Descending t.ranked ∧
    (∀ bytes, t.ranked.filter (·.2 = bytes) = t.shares.entries.filter (·.2 = bytes)) ∧
    t.leaders least threshold <+: t.ranked.map Prod.fst ∧
    (∀ i host bytes, t.ranked[i]? = some (host, bytes) →
      (host ∈ t.leaders least threshold ↔ t.Worthy least threshold i bytes)) ∧
    min least t.size ≤ (t.leaders least threshold).length ∧
    (∀ host bytes, t.get? host = some bytes → t.total ≠ 0 →
      threshold ≤ bytes.toFloat / t.total.toFloat → host ∈ t.leaders least threshold) ∧
    (∀ host other, t.get? host = t.get? other →
      (host ∈ t.leaders least threshold ↔ other ∈ t.leaders least threshold)) ∧
    (∀ more, least ≤ more → t.leaders least threshold <+: t.leaders more threshold) ∧
    (∀ lower, lower ≤ threshold → t.leaders least threshold <+: t.leaders least lower) := by
  refine ⟨t.perm_ranked, t.descending_ranked, t.filter_ranked, ?_,
    fun i host bytes h => mem_leaders_iff h, ?_, fun host bytes h htotal hshare => ?_,
    fun host other h => ⟨mem_leaders_of_get?_eq h, mem_leaders_of_get?_eq h.symm⟩,
    fun more hmore => ?_, fun lower hlower => ?_⟩
  · rw [leaders_eq_take]
    exact List.take_prefix ..
  · rw [leaders_eq_take, List.length_take, List.length_map, length_ranked]
    exact Nat.le_min.2 ⟨t.min_le_leading least threshold, Nat.min_le_right ..⟩
  · obtain ⟨i, hi⟩ := exists_rank h
    exact (mem_leaders_iff hi).2 (Or.inr (Or.inl ⟨htotal, hshare⟩))
  · exact leaders_prefix_of_worthy fun i e he => Worthy.of_least_le hmore he
  · exact leaders_prefix_of_worthy fun i e he => Worthy.of_threshold_le hlower

end

end Tally

end Apportion
