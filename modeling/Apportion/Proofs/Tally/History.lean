/-
  The history of a tally: what it tells after any additions, some of them refused.

  * `Addition`, `absorb`, `absorbAll`: additions one after the other; one that is refused leaves the
    tally as it was.
  * `accepted`: the additions that are not refused, told by their sums alone.
  * `Sums.absorb`, `sums_absorbAll`: a tally holds the sums of the additions accepted.
  * `tells_accepted_sums`: hosts, bytes, total and ranking from the history.
-/
import Apportion.Proofs.Tally.Order
import Mathlib.Data.Finset.Card
import Mathlib.Data.List.Induction

namespace Apportion

/-- What can be added to a tally: bytes credited to a host, or the length of a range. -/
inductive Addition
  | credit (host : String) (bytes : UInt64)
  | range (length : UInt64)

namespace Addition

open Quantity Tally

/-- The bytes credited, with their hosts. -/
def credits (l : List Addition) : List (String × UInt64) :=
  l.filterMap fun
    | credit host bytes => some (host, bytes)
    | range _ => none

/-- The hosts that bytes are credited to, one for each credit. -/
def hosts (l : List Addition) : List String := (credits l).map Prod.fst

/-- The lengths of the ranges together. -/
def measured (l : List Addition) : Nat :=
  (l.map fun
    | credit _ _ => 0
    | range length => length.toNat).sum

/-- Whether an addition fits with those taken: their sum for its host, or for the total, is not
    beyond the largest quantity. -/
def Fits (taken : List Addition) : Addition → Prop
  | credit host bytes => credited host (credits taken) + bytes.toNat ≤ largest
  | range length => measured taken + length.toNat ≤ largest

instance (taken : List Addition) : DecidablePred (Fits taken)
  | credit _ _ => inferInstanceAs (Decidable (_ ≤ _))
  | range _ => inferInstanceAs (Decidable (_ ≤ _))

/-- Those taken, and an addition if it fits with them. -/
def take (taken : List Addition) (a : Addition) : List Addition :=
  if Fits taken a then taken ++ [a] else taken

/-- The additions that are accepted: those that fit with what was accepted before them. -/
def accepted (l : List Addition) : List Addition := l.foldl take []

section
variable (l : List Addition) (host : String) (bytes length : UInt64)

@[simp] theorem credits_append_credit :
    credits (l ++ [credit host bytes]) = credits l ++ [(host, bytes)] := List.filterMap_append

@[simp] theorem credits_append_range : credits (l ++ [range length]) = credits l := by
  rw [credits, List.filterMap_append]
  exact List.append_nil _

@[simp] theorem hosts_append_credit :
    hosts (l ++ [credit host bytes]) = hosts l ++ [host] := by
  rw [hosts, credits_append_credit, List.map_append]
  rfl

@[simp] theorem hosts_append_range : hosts (l ++ [range length]) = hosts l := by
  rw [hosts, credits_append_range, hosts]

@[simp] theorem measured_append_credit :
    measured (l ++ [credit host bytes]) = measured l := by
  simp only [measured, List.map_append, List.sum_append, List.map_singleton, List.sum_singleton,
    Nat.add_zero]

@[simp] theorem measured_append_range :
    measured (l ++ [range length]) = measured l + length.toNat := by
  simp only [measured, List.map_append, List.sum_append, List.map_singleton, List.sum_singleton]

theorem accepted_append_singleton (a : Addition) : accepted (l ++ [a]) = take (accepted l) a := by
  rw [accepted, List.foldl_append]
  rfl

end

variable {l : List Addition} {host : String} {bytes : UInt64}

theorem credited_append_singleton (j : String) (c : List (String × UInt64)) :
    credited j (c ++ [(host, bytes)]) = credited j c + if j = host then bytes.toNat else 0 := by
  simp only [credited, List.map_append, List.sum_append, List.map_singleton, List.sum_singleton]

theorem credited_eq_zero (h : host ∉ hosts l) : credited host (credits l) = 0 := by
  refine List.sum_eq_zero fun n hn => ?_
  obtain ⟨e, he, rfl⟩ := List.mem_map.1 hn
  refine if_neg fun heq => h ?_
  rw [heq]
  exact List.mem_map_of_mem he

/-- The first credit of a host fits. -/
theorem mem_hosts_of_not_fits (h : ¬ Fits l (credit host bytes)) : host ∈ hosts l := by
  by_contra hnew
  have := bytes.toNat_lt
  simp only [Fits, credited_eq_zero hnew, largest] at h
  omega

/-- Every host that bytes are credited to has a credit that is accepted, the first one. -/
theorem eraseDups_hosts_accepted (l : List Addition) :
    (hosts (accepted l)).eraseDups = (hosts l).eraseDups := by
  induction l using List.reverseRecOn with
  | nil => rfl
  | append_singleton l a ih =>
    rw [accepted_append_singleton, take]
    cases a with
    | credit host bytes =>
      rw [hosts_append_credit, ← eraseDups_append_congr ih rfl]
      split
      · rw [hosts_append_credit]
      · rename_i hfit
        refine (eraseDups_append_of_subset fun other hother => ?_).symm
        rw [List.mem_singleton.1 hother]
        exact mem_hosts_of_not_fits hfit
    | range length =>
      rw [hosts_append_range, ← ih]
      split
      · rw [hosts_append_range]
      · rfl

end Addition

namespace Tally

open Quantity Addition

/-- Takes an addition in, unless it is refused. -/
def absorb (t : Tally) : Addition → Tally
  | .credit host bytes => (t.add host bytes).getD t
  | .range length => (t.addRange length).getD t

/-- A new tally after additions, one after the other. -/
def absorbAll (l : List Addition) : Tally := l.foldl absorb empty

/-- A tally holds the sums of these additions. -/
structure Sums (t : Tally) (taken : List Addition) : Prop where
  keys_eq : t.shares.keys = (hosts taken).eraseDups
  get?_eq : ∀ host, (t.get? host).map UInt64.toNat =
    if host ∈ hosts taken then some (credited host (credits taken)) else none
  total_eq : t.total.toNat = measured taken

theorem sums_empty : empty.Sums [] := ⟨rfl, fun _ => rfl, rfl⟩

variable {t : Tally} {taken : List Addition}

/-! ## One addition -/

theorem Sums.held_cases (h : t.Sums taken) (host : String) :
    (t.get? host = none ∧ host ∉ hosts taken) ∨
      ∃ held, t.get? host = some held ∧ host ∈ hosts taken ∧
        held.toNat = credited host (credits taken) := by
  have hget := h.get?_eq host
  cases hheld : t.get? host <;> rw [hheld] at hget <;> split at hget
  · cases hget
  · exact Or.inl ⟨rfl, ‹_›⟩
  · exact Or.inr ⟨_, rfl, ‹_›, Option.some.inj hget⟩
  · cases hget

/-- The host of a credit holds it together with what it held before. -/
theorem Sums.put {host : String} {bytes sum : UInt64} (h : t.Sums taken)
    (hsum : sum.toNat = credited host (credits taken) + bytes.toNat) :
    (t.put host sum).Sums (taken ++ [.credit host bytes]) := by
  refine ⟨?_, fun other => ?_, ?_⟩
  · have hkeys : t.shares.keys.eraseDups = (hosts taken).eraseDups :=
      (eraseDups_of_nodup t.shares.distinct).trans h.keys_eq
    rw [hosts_append_credit, shares_put, Keyed.keys_put_eq_eraseDups]
    exact eraseDups_append_congr hkeys rfl
  · rw [Tally.get?_eq, shares_put, Keyed.get?_put, hosts_append_credit, credits_append_credit,
      credited_append_singleton]
    by_cases hother : other = host
    · simp [hother, hsum]
    · simpa [hother, Tally.get?_eq] using h.get?_eq other
  · rw [measured_append_credit]
    exact h.total_eq

/-- **One addition**: a tally takes it in if it fits, and stays as it was if it does not. -/
theorem Sums.absorb (h : t.Sums taken) (a : Addition) : (t.absorb a).Sums (take taken a) := by
  unfold Tally.absorb Addition.take
  cases a with
  | credit host bytes =>
    obtain ⟨hnone, hnew⟩ | ⟨held, hheld, -, heq⟩ := h.held_cases host
    · rw [if_pos (by_contra fun hfit => hnew (mem_hosts_of_not_fits hfit))]
      simp only [add_of_get?_eq_none hnone, Option.getD_some]
      exact h.put (by rw [credited_eq_zero hnew, Nat.zero_add])
    · simp only [add_of_get?_eq_some hheld]
      by_cases hfit : Fits taken (.credit host bytes)
      · rw [if_pos hfit]
        rw [Fits, ← heq] at hfit
        obtain ⟨sum, hsum, hsumeq⟩ := exists_addWithin? hfit
        rw [hsum]
        exact h.put (heq ▸ hsumeq)
      · rw [if_neg hfit]
        rw [Fits, ← heq, Nat.not_le] at hfit
        rw [addWithin?_eq_none_iff.2 hfit]
        exact h
  | range length =>
    simp only [addRange]
    by_cases hfit : Fits taken (.range length)
    · rw [if_pos hfit]
      rw [Fits, ← h.total_eq] at hfit
      obtain ⟨sum, hsum, hsumeq⟩ := exists_addWithin? hfit
      rw [hsum]
      refine ⟨?_, fun host => ?_, ?_⟩
      · rw [hosts_append_range]
        exact h.keys_eq
      · rw [hosts_append_range, credits_append_range]
        exact h.get?_eq host
      · rw [measured_append_range, ← h.total_eq]
        exact hsumeq
    · rw [if_neg hfit]
      rw [Fits, ← h.total_eq, Nat.not_le] at hfit
      rw [addWithin?_eq_none_iff.2 hfit]
      exact h

/-- **Any additions**: a tally holds the sums of those accepted. -/
theorem sums_absorbAll (l : List Addition) : (absorbAll l).Sums (accepted l) := by
  induction l using List.reverseRecOn with
  | nil => exact sums_empty
  | append_singleton l a ih =>
    rw [accepted_append_singleton, absorbAll, List.foldl_append]
    exact ih.absorb a

/-! ## The ranking -/

theorem map_fst_filter_entries (t : Tally) (bytes : UInt64) :
    (t.shares.entries.filter (·.2 = bytes)).map Prod.fst =
      t.shares.keys.filter fun host => t.get? host = some bytes := by
  rw [Keyed.keys, List.filter_map]
  refine congrArg _ (List.filter_congr fun e he => ?_)
  have hget : t.get? e.1 = some e.2 := mem_shares_iff.1 he
  simp only [Function.comp_apply, hget, Option.some.injEq]

/-- **A tally tells its history**: after any additions, of which those that go beyond the largest
    quantity are refused,

    * it lists the hosts that bytes were ever credited to, each once, in the order of the first
      credits, and its size is their number;
    * a host holds the sum of the credits accepted for it, and the total is the sum of the ranges
      accepted;
    * the ranking is these hosts with what they hold, most first, equals in the order listed. -/
theorem tells_accepted_sums (l : List Addition) :
    let t := absorbAll l
    FirstOccurrences (hosts l) t.shares.keys ∧
    t.size = (hosts l).toFinset.card ∧
    (∀ host, (t.get? host).map UInt64.toNat =
      if host ∈ hosts l then some (credited host (credits (accepted l))) else none) ∧
    t.total.toNat = measured (accepted l) ∧
    t.ranked.Perm
      (t.shares.keys.filterMap fun host => (t.get? host).map fun bytes => (host, bytes)) ∧
    Descending t.ranked ∧
    ∀ bytes, (t.ranked.filter (·.2 = bytes)).map Prod.fst =
      t.shares.keys.filter fun host => t.get? host = some bytes := by
  intro t
  have hsums : t.Sums (accepted l) := sums_absorbAll l
  have hfirst : FirstOccurrences (hosts l) t.shares.keys := by
    rw [hsums.keys_eq, eraseDups_hosts_accepted]
    exact firstOccurrences_eraseDups _
  have hmem : ∀ host, host ∈ hosts (accepted l) ↔ host ∈ hosts l := fun host => by
    rw [← List.mem_eraseDups, eraseDups_hosts_accepted, List.mem_eraseDups]
  refine ⟨hfirst, ?_, fun host => ?_, hsums.total_eq, ?_, t.descending_ranked, fun bytes => ?_⟩
  · have hset : (hosts l).toFinset = t.shares.keys.toFinset := by
      ext host
      simp only [List.mem_toFinset, hfirst.mem_iff]
    rw [hset, List.toFinset_card_of_nodup hfirst.distinct, Keyed.keys, List.length_map]
    rfl
  · simpa only [hmem] using hsums.get?_eq host
  · simp only [get?_eq]
    exact t.perm_ranked.trans (.of_eq t.shares.entries_eq)
  · rw [filter_ranked, map_fst_filter_entries]

end Tally

end Apportion
