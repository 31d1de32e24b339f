/-
  The order in which a tally lists its hosts.

  * `keys_addAll`: hosts are listed in the order in which they are first credited.
  * `eq_of_get?_eq`: the order, the shares and the total are all there is to a tally.
  * `leaders_of_equal`: hosts that all hold the same are all leaders, in the order listed.
-/
import Apportion.Proofs.FirstOccurrences
import Apportion.Proofs.Tally.Credits
import Apportion.Proofs.Tally.Leaders

namespace Apportion

namespace Keyed

variable {κ ν : Type} [DecidableEq κ]

/-- The bindings are the keys in order, each with what it is bound to. -/
theorem entries_eq (m : Keyed κ ν) :
    m.entries = m.keys.filterMap fun k => (m.get? k).map fun v => (k, v) := by
  have hget : ∀ e ∈ m.entries, (m.get? e.1).map (fun v => (e.1, v)) = some e := by
    rintro ⟨k, v⟩ he
    rw [mem_entries_iff.1 he, Option.map_some]
  calc m.entries
      = m.entries.filterMap fun e => (m.get? e.1).map fun v => (e.1, v) := by
        rw [List.filterMap_congr hget]
        exact List.filterMap_some.symm
    _ = m.keys.filterMap fun k => (m.get? k).map fun v => (k, v) := by
        rw [keys, List.filterMap_map]
        rfl

theorem ext_get? {m m' : Keyed κ ν} (hkeys : m.keys = m'.keys)
    (hget : ∀ k, m.get? k = m'.get? k) : m = m' := by
  have hentries : m.entries = m'.entries := by
    simp only [entries_eq, hkeys, hget]
  cases m
  cases m'
  cases hentries
  rfl

/-- A key that is new comes last; one that is not stays where it is. -/
theorem keys_put_eq_eraseDups (m : Keyed κ ν) (k : κ) (v : ν) :
    (m.put k v).keys = (m.keys ++ [k]).eraseDups := by
  have hdistinct : m.keys.Nodup := m.distinct
  rw [keys_put]
  split
  · rename_i hmem
    rw [eraseDups_append_of_subset (by simpa using hmem), eraseDups_of_nodup hdistinct]
  · rename_i hmem
    refine (eraseDups_of_nodup (List.nodup_append.2 ⟨hdistinct, by simp, ?_⟩)).symm
    intro a ha b hb
    rw [List.mem_singleton.1 hb]
    exact ne_of_mem_of_not_mem ha hmem

end Keyed

namespace Tally

variable {t t' : Tally}

/-! ## First credits -/

theorem keys_add {host : String} {bytes : UInt64} (h : t.add host bytes = some t') :
    t'.shares.keys = (t.shares.keys ++ [host]).eraseDups := by
  cases hheld : t.get? host with
  | none =>
    cases (add_of_get?_eq_none hheld).symm.trans h
    rw [shares_put, Keyed.keys_put_eq_eraseDups]
  | some held =>
    obtain ⟨sum, -, rfl⟩ := Option.map_eq_some_iff.1 ((add_of_get?_eq_some hheld).symm.trans h)
    rw [shares_put, Keyed.keys_put_eq_eraseDups]

/-- Hosts are listed in the order in which they are first credited. -/
theorem keys_addAll {credits : List (String × UInt64)} (h : t.addAll credits = some t') :
    t'.shares.keys = (t.shares.keys ++ credits.map Prod.fst).eraseDups := by
  induction credits generalizing t with
  | nil =>
    cases h
    rw [List.map_nil, List.append_nil]
    exact (eraseDups_of_nodup t'.shares.distinct).symm
  | cons credit credits ih =>
    rw [addAll, List.foldlM_cons] at h
    obtain ⟨t₁, ht₁, h⟩ := Option.bind_eq_some_iff.1 h
    have hkeys : t₁.shares.keys.eraseDups = (t.shares.keys ++ [credit.1]).eraseDups := by
      rw [← keys_add ht₁]
      exact eraseDups_of_nodup t₁.shares.distinct
    rw [ih h, List.map_cons, List.append_cons]
    exact eraseDups_append_congr hkeys rfl

theorem addRange_eq_some {length : UInt64} (h : t.addRange length = some t') :
    t'.shares = t.shares := by
  obtain ⟨sum, -, rfl⟩ := Option.map_eq_some_iff.1 h
  rfl

/-- Tallies that list the same hosts with the same shares and have the same total are the same. -/
theorem eq_of_get?_eq (htotal : t.total = t'.total) (hkeys : t.shares.keys = t'.shares.keys)
    (hget : ∀ host, t.get? host = t'.get? host) : t = t' := by
  simp only [get?_eq] at hget
  exact eq_of_shares_eq (Keyed.ext_get? hkeys hget) htotal

/-! ## Hosts that hold the same -/

theorem keepLeading_of_equal {least : Nat} {enough : UInt64 → Bool} {bytes : UInt64}
    {l : List (String × UInt64)} (hall : ∀ e ∈ l, e.2 = bytes) {kept : Nat}
    {previous : Option UInt64} (hfirst : kept < least ∨ previous = some bytes) :
    keepLeading least enough kept previous l = l := by
  induction l generalizing kept previous with
  | nil => rfl
  | cons e l ih =>
    obtain ⟨host, held⟩ := e
    obtain ⟨rfl, hl⟩ := List.forall_mem_cons.1 hall
    have hkeep : (kept < least || previous = some held || enough held) = true := by
      simp only [Bool.or_eq_true, decide_eq_true_iff]
      exact Or.inl hfirst
    rw [keepLeading, if_pos hkeep, ih hl (Or.inr rfl)]

/-- **Hosts that all hold the same are all leaders**, in the order listed. -/
theorem leaders_of_equal {bytes : UInt64} (hall : ∀ e ∈ t.shares.entries, e.2 = bytes)
    {least : Nat} (hleast : 0 < least) (threshold : Float) :
    t.leaders least threshold = t.shares.keys := by
  have hranked : t.ranked = t.shares.entries := by
    refine List.mergeSort_of_pairwise (List.pairwise_of_forall_mem_list fun a ha b hb => ?_)
    rw [hall a ha, hall b hb]
    exact decide_eq_true (UInt64.le_refl bytes)
  rw [leaders, hranked, keepLeading_of_equal hall (Or.inl hleast), Keyed.keys]

end Tally

end Apportion
