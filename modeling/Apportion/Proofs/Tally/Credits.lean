/-
  What a tally has counted, as a total and a share for each host.

  * `Counts t total shares`: the view; a host with no bytes is not in the tally.
  * `Counts.addRange`, `Counts.add`, `Counts.addAll`: a range, a credit, and credits one after
    the other are counted as long as the sums fit.
  * `Counts.addRange_eq_none`, `Counts.add_eq_none`, `Counts.addAll_eq_none`: and are refused
    as soon as one does not.
-/
import Apportion.Tally
import Mathlib.Algebra.BigOperators.Group.List.Basic
import Mathlib.Algebra.GroupWithZero.Nat

namespace Apportion

namespace Quantity

theorem addWithin?_eq_none_iff {a b : UInt64} :
    addWithin? a b = none ↔ largest < a.toNat + b.toNat := by
  unfold addWithin?
  split <;> simp <;> omega

theorem exists_addWithin? {a b : UInt64} (h : a.toNat + b.toNat ≤ largest) :
    ∃ sum, addWithin? a b = some sum ∧ sum.toNat = a.toNat + b.toNat := by
  cases hsum : addWithin? a b with
  | none => rw [addWithin?_eq_none_iff] at hsum; omega
  | some sum => exact ⟨sum, rfl, addWithin?_eq_some_iff.1 hsum⟩

end Quantity

namespace Tally

open Quantity

/-- `total` bytes have been counted in all and `shares h` of them credited to `h`; a host credited
    with nothing is not in the tally. -/
structure Counts (t : Tally) (total : Nat) (shares : String → Nat) : Prop where
  total_eq : t.total.toNat = total
  get?_eq : ∀ h, (t.get? h).map UInt64.toNat = if shares h = 0 then none else some (shares h)

theorem counts_empty : empty.Counts 0 fun _ => 0 := ⟨rfl, fun _ => rfl⟩

variable {t : Tally} {total : Nat} {shares : String → Nat}

theorem Counts.eq_zero {host : String} (h : t.Counts total shares)
    (hnone : t.get? host = none) : shares host = 0 := by
  have hget := h.get?_eq host
  rw [hnone] at hget
  by_contra hne
  rw [if_neg hne] at hget
  cases hget

theorem Counts.toNat_eq {host : String} {held : UInt64} (h : t.Counts total shares)
    (hsome : t.get? host = some held) : held.toNat = shares host := by
  have hget := h.get?_eq host
  rw [hsome, Option.map_some] at hget
  split at hget
  · cases hget
  · exact Option.some.inj hget

/-- What a tally holds fits. -/
theorem Counts.shares_le (h : t.Counts total shares) (host : String) : shares host ≤ largest := by
  cases hheld : t.get? host with
  | none => rw [h.eq_zero hheld]; exact Nat.zero_le _
  | some held =>
    have := held.toNat_lt
    rw [← h.toNat_eq hheld, largest]
    omega

/-- Tallies that have counted the same tell the same. -/
theorem Counts.same {t' : Tally} (h : t.Counts total shares) (h' : t'.Counts total shares) :
    t.total = t'.total ∧ ∀ host, t.get? host = t'.get? host := by
  refine ⟨UInt64.toNat_inj.1 (h.total_eq.trans h'.total_eq.symm), fun host => ?_⟩
  refine Option.map_injective (fun _ _ => UInt64.toNat_inj.1) ?_
  exact (h.get?_eq host).trans (h'.get?_eq host).symm

/-! ## One step -/

theorem Counts.addRange {length : UInt64} (h : t.Counts total shares)
    (hfit : total + length.toNat ≤ largest) :
    ∃ t', t.addRange length = some t' ∧ t'.Counts (total + length.toNat) shares := by
  obtain ⟨sum, hsum, heq⟩ := exists_addWithin? (h.total_eq.symm ▸ hfit)
  refine ⟨{ t with total := sum }, by rw [Tally.addRange, hsum]; rfl, ?_, h.get?_eq⟩
  rw [← h.total_eq]
  exact heq

theorem Counts.addRange_eq_none {length : UInt64} (h : t.Counts total shares)
    (hbig : largest < total + length.toNat) : t.addRange length = none := by
  rw [Tally.addRange, addWithin?_eq_none_iff.2 (h.total_eq.symm ▸ hbig)]
  rfl

theorem Counts.put {host : String} {bytes : UInt64} {sum : Nat} (h : t.Counts total shares)
    (hsum : bytes.toNat = sum) (hpos : sum ≠ 0) :
    (t.put host bytes).Counts total fun j => if j = host then sum else shares j := by
  refine ⟨h.total_eq, fun j => ?_⟩
  rw [Tally.get?_eq, shares_put, Keyed.get?_put]
  by_cases hj : j = host
  · simp [hj, hsum, hpos]
  · simpa only [if_neg hj, Tally.get?_eq] using h.get?_eq j

theorem Counts.add {host : String} {bytes : UInt64} (h : t.Counts total shares) (hpos : bytes ≠ 0)
    (hfit : shares host + bytes.toNat ≤ largest) :
    ∃ t', t.add host bytes = some t' ∧
      t'.Counts total fun j => shares j + if j = host then bytes.toNat else 0 := by
  have hpos' : bytes.toNat ≠ 0 := fun e => hpos (UInt64.toNat_inj.1 e)
  have hshares : (fun j => shares j + if j = host then bytes.toNat else 0) =
      fun j => if j = host then shares host + bytes.toNat else shares j := by
    funext j
    by_cases hj : j = host <;> simp [hj]
  rw [hshares]
  cases hheld : t.get? host with
  | none =>
    rw [add_of_get?_eq_none hheld, h.eq_zero hheld, Nat.zero_add]
    exact ⟨_, rfl, h.put rfl hpos'⟩
  | some held =>
    have hshare := h.toNat_eq hheld
    obtain ⟨sum, hsum, heq⟩ := exists_addWithin? (hshare.symm ▸ hfit)
    rw [add_of_get?_eq_some hheld, hsum]
    exact ⟨_, rfl, h.put (hshare ▸ heq) (by omega)⟩

theorem Counts.add_eq_none {host : String} {bytes : UInt64} (h : t.Counts total shares)
    (hbig : largest < shares host + bytes.toNat) : t.add host bytes = none := by
  cases hheld : t.get? host with
  | none =>
    have := bytes.toNat_lt
    simp only [h.eq_zero hheld, largest] at hbig
    omega
  | some held =>
    rw [add_of_get?_eq_some hheld, addWithin?_eq_none_iff.2 (h.toNat_eq hheld ▸ hbig)]
    rfl

/-! ## Credits one after the other -/

/-- Credits hosts one after the other, unless a sum exceeds the largest quantity. -/
def addAll (t : Tally) (credits : List (String × UInt64)) : Option Tally :=
  credits.foldlM (fun t credit => t.add credit.1 credit.2) t

/-- The bytes that credits give to a host. -/
def credited (host : String) (credits : List (String × UInt64)) : Nat :=
  (credits.map fun credit => if host = credit.1 then credit.2.toNat else 0).sum

theorem addAll_append (t : Tally) (credits more : List (String × UInt64)) :
    t.addAll (credits ++ more) = (t.addAll credits).bind fun t => t.addAll more :=
  List.foldlM_append

theorem Counts.addAll {credits : List (String × UInt64)} (h : t.Counts total shares)
    (hpos : ∀ credit ∈ credits, credit.2 ≠ 0)
    (hfit : ∀ j, shares j + credited j credits ≤ largest) :
    ∃ t', t.addAll credits = some t' ∧
      t'.Counts total fun j => shares j + credited j credits := by
  induction credits generalizing t shares with
  | nil => exact ⟨t, rfl, h⟩
  | cons credit credits ih =>
    simp only [credited, List.map_cons, List.sum_cons] at hfit ih ⊢
    have hfirst : shares credit.1 + credit.2.toNat ≤ largest := by
      have := hfit credit.1
      rw [if_pos rfl] at this
      omega
    obtain ⟨t₁, ht₁, hcounts⟩ := h.add (hpos credit (List.mem_cons_self ..)) hfirst
    obtain ⟨t₂, ht₂, hcounts₂⟩ := ih hcounts
      (fun c hc => hpos c (List.mem_cons_of_mem _ hc)) (fun j => by have := hfit j; omega)
    refine ⟨t₂, ?_, by simpa only [Nat.add_assoc] using hcounts₂⟩
    rw [Tally.addAll, List.foldlM_cons, ht₁]
    exact ht₂

theorem Counts.addAll_eq_none {credits : List (String × UInt64)} (h : t.Counts total shares)
    (hpos : ∀ credit ∈ credits, credit.2 ≠ 0) (host : String)
    (hbig : largest < shares host + credited host credits) : t.addAll credits = none := by
  induction credits generalizing t shares with
  | nil =>
    have := h.shares_le host
    simp only [credited, List.map_nil, List.sum_nil] at hbig
    omega
  | cons credit credits ih =>
    simp only [credited, List.map_cons, List.sum_cons] at hbig ih
    rw [Tally.addAll, List.foldlM_cons]
    by_cases hfirst : shares credit.1 + credit.2.toNat ≤ largest
    · obtain ⟨t₁, ht₁, hcounts⟩ := h.add (hpos credit (List.mem_cons_self ..)) hfirst
      rw [ht₁]
      exact ih hcounts (fun c hc => hpos c (List.mem_cons_of_mem _ hc))
        (by rwa [Nat.add_assoc])
    · rw [h.add_eq_none (Nat.lt_of_not_le hfirst)]
      rfl

end Tally

end Apportion
