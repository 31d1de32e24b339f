/-
  What planning makes of references.

  * `Estimated`, `Unestimated`: a reference has hosts, or what keeps it from having some.
  * `Apportioned`: the references fall into splits of one size in order, each split with
    the hosts of its own references.
  * `splits_iff_estimated`: planning succeeds iff every reference has hosts, fails as the
    first one without fails, and what it answers is `Apportioned`.
-/
import Apportion.Catalog
import Apportion.Plan.Basic
import Apportion.Proofs.Plan.Groups
import Apportion.Proofs.Sequence
import Apportion.Proofs.Split.Hosts

namespace Apportion

namespace Plan

open Sequence

variable {σ : Type} [Store σ]

section
variable (settings : LocalitySettings) (resolver : Resolver) (s : σ)

/-- A reference resolves, and these hosts are preferred for its descriptors. -/
def Estimated (reference : String) (hosts : List String) : Prop :=
  ∃ ds, resolver reference = .ok ds ∧ Locality.preferredHosts settings s ds = .ok hosts

/-- A reference does not resolve, or its descriptors have no estimate. -/
def Unestimated (reference : String) (failure : Failure) : Prop :=
  resolver reference = .error failure ∨
    ∃ ds, resolver reference = .ok ds ∧ Locality.preferredHosts settings s ds = .error failure

theorem hostsFor_eq_ok_iff {reference : String} {hosts : List String} :
    hostsFor settings resolver s reference = .ok hosts ↔
      Estimated settings resolver s reference hosts :=
  bind_eq_ok_iff

theorem hostsFor_eq_error_iff {reference : String} {failure : Failure} :
    hostsFor settings resolver s reference = .error failure ↔
      Unestimated settings resolver s reference failure :=
  bind_eq_error_iff

/-- `out` holds the references in order, as many to a split as the bound asks for, and each split
    the hosts estimated for its own references. -/
structure Apportioned (references : List String) (bound : Option UInt32) (out : List Split) :
    Prop where
  /-- Split `k` holds the references from `k * g` up to `min ((k + 1) * g) n`. -/
  slice : ∀ k (hk : k < out.length), out[k].paths =
    (references.take (min ((k + 1) * groupSize references.length bound) references.length)).drop
      (k * groupSize references.length bound)
  nonempty : ∀ split ∈ out, split.paths ≠ []
  complete : (out.map Split.paths).flatten = references
  bounded : ∀ w, bound = some w → out.length ≤ max w.toNat 1
  unbounded : bound = none → out.length = references.length
  /-- The hosts are those of the references of the split, each where it comes first. -/
  hosts : ∀ split ∈ out, ∃ estimates,
    List.Forall₂ (Estimated settings resolver s) split.paths estimates ∧
      FirstOccurrences estimates.flatten split.hosts

end

/-! ## Groups of references with groups of hosts -/

/-- The splits of references and of the hosts of each. -/
def splitsOf (size : Nat) (references : List String) (estimates : List (List String)) :
    List Split :=
  List.zipWith (fun paths hosts => Split.of paths hosts.flatten)
    (groups size references) (groups size estimates)

section
variable {size : Nat} {references : List String} {estimates : List (List String)}

theorem length_splitsOf (hs : 0 < size) (hlen : references.length = estimates.length) :
    (splitsOf size references estimates).length = (groups size references).length := by
  rw [splitsOf, List.length_zipWith, length_groups_congr hs hlen.symm, Nat.min_self]

theorem map_paths_splitsOf (hs : 0 < size) (hlen : references.length = estimates.length) :
    (splitsOf size references estimates).map Split.paths = groups size references := by
  have hg := Nat.le_of_eq (length_groups_congr hs hlen)
  simp only [splitsOf, List.map_zipWith, Split.of]
  rw [← List.map_uncurry_zip_eq_zipWith]
  exact List.map_fst_zip hg

theorem getElem_splitsOf (hs : 0 < size) {k : Nat}
    (hk : k < (splitsOf size references estimates).length) :
    (splitsOf size references estimates)[k] =
      Split.of ((references.drop (k * size)).take size)
        ((estimates.drop (k * size)).take size).flatten := by
  simp only [splitsOf, List.getElem_zipWith, getElem_groups hs]

/-- A slice of a list, by where it ends or by how long it is. -/
theorem take_drop_eq_slice (l : List String) (k : Nat) :
    (l.drop (k * size)).take size = (l.take (min ((k + 1) * size) l.length)).drop (k * size) := by
  rw [← List.take_eq_take_min, List.drop_take, Nat.succ_mul, Nat.add_sub_cancel_left]

variable (settings : LocalitySettings) (resolver : Resolver) (s : σ)

theorem apportioned_splitsOf {bound : Option UInt32} (hne : references ≠ [])
    (h : List.Forall₂ (Estimated settings resolver s) references estimates) :
    Apportioned settings resolver s references bound
      (splitsOf (groupSize references.length bound) references estimates) := by
  have hs := groupSize_pos references.length bound
  have hlen := h.length_eq
  have hpaths := map_paths_splitsOf hs hlen
  have hcount : (splitsOf (groupSize references.length bound) references estimates).length ≤
      workers references.length bound := by
    rw [length_splitsOf hs hlen, length_groups_le_iff hs]
    exact (groupSize_le_iff hs).1 (Nat.le_refl _)
  refine
    { slice := fun k hk => ?_
      nonempty := fun split hsplit => ?_
      complete := by rw [hpaths, flatten_groups]
      bounded := fun w hw => by subst hw; exact hcount
      unbounded := fun hb => ?_
      hosts := fun split hsplit => ?_ }
  · rw [getElem_splitsOf hs, Split.of, take_drop_eq_slice]
  · exact ne_nil_of_mem_groups (hpaths ▸ List.mem_map_of_mem hsplit)
  · subst hb
    have hpos : 0 < references.length := List.length_pos_iff.2 hne
    rw [length_splitsOf hs hlen, groupSize_none hpos, length_groups_one]
  · obtain ⟨k, hk, rfl⟩ := List.getElem_of_mem hsplit
    rw [getElem_splitsOf hs]
    exact ⟨_, List.forall₂_take _ (List.forall₂_drop _ h), Split.hosts_of _ _⟩

end

/-! ## Planning -/

section
variable (settings : LocalitySettings) (resolver : Resolver) (s : σ) {references : List String}
  (bound : Option UInt32)

theorem splits_eq (hne : references ≠ []) :
    splits settings resolver s references bound =
      (references.mapM (hostsFor settings resolver s)).map
        (splitsOf (groupSize references.length bound) references) := by
  rw [splits, if_neg (by simpa using hne)]
  rfl

theorem splits_eq_ok_iff (hne : references ≠ []) {out : List Split} :
    splits settings resolver s references bound = .ok out ↔
      ∃ estimates, List.Forall₂ (Estimated settings resolver s) references estimates ∧
        splitsOf (groupSize references.length bound) references estimates = out := by
  rw [splits_eq _ _ _ _ hne, map_eq_ok_iff]
  simp only [mapM_eq_ok_iff, hostsFor_eq_ok_iff]

/-- **Planning, for any store, resolver and bound.**  It succeeds iff every reference has hosts;
    the first reference without decides how it fails, whatever the bound; and what it answers
    is `Apportioned`. -/
theorem splits_iff_estimated (hne : references ≠ []) :
    ((∃ out, splits settings resolver s references bound = .ok out) ↔
      ∀ r ∈ references, ∃ hosts, Estimated settings resolver s r hosts) ∧
    (∀ before r after failure, references = before ++ r :: after →
      (∀ q ∈ before, ∃ hosts, Estimated settings resolver s q hosts) →
      Unestimated settings resolver s r failure →
      splits settings resolver s references bound = .error failure) ∧
    ∀ out, splits settings resolver s references bound = .ok out →
      Apportioned settings resolver s references bound out := by
  refine ⟨?_, ?_, ?_⟩
  · constructor
    · rintro ⟨out, h⟩ r hr
      obtain ⟨estimates, hall, -⟩ := (splits_eq_ok_iff settings resolver s bound hne).1 h
      obtain ⟨k, hk, rfl⟩ := List.getElem_of_mem hr
      exact ⟨_, hall.get hk (hall.length_eq ▸ hk)⟩
    · intro h
      obtain ⟨estimates, hall⟩ := (exists_mapM_eq_ok_iff (f := hostsFor settings resolver s)).2
        fun r hr => (h r hr).imp fun _ => (hostsFor_eq_ok_iff settings resolver s).2
      exact ⟨_, by rw [splits_eq _ _ _ _ hne, hall]; rfl⟩
  · intro before r after failure href hbefore hr
    have hfail : references.mapM (hostsFor settings resolver s) = .error failure :=
      mapM_eq_error_iff.2 ⟨before, r, after, href,
        fun q hq => (hbefore q hq).imp fun _ => (hostsFor_eq_ok_iff settings resolver s).2,
        (hostsFor_eq_error_iff settings resolver s).2 hr⟩
    rw [splits_eq _ _ _ _ hne, hfail]
    rfl
  · intro out h
    obtain ⟨estimates, hall, rfl⟩ := (splits_eq_ok_iff settings resolver s bound hne).1 h
    exact apportioned_splitsOf settings resolver s hne hall

/-- Three references without descriptors, and two splits at most. -/
theorem splits_iff_estimated_three : ["a", "b", "c"] ≠ ([] : List String) ∧
    ∃ out, splits {} (fun _ => .ok []) Catalog.empty ["a", "b", "c"] (some 2) = .ok out ∧
      Apportioned {} (fun _ => .ok []) Catalog.empty ["a", "b", "c"] (some 2) out := by
  obtain ⟨hiff, -, happortioned⟩ :=
    @splits_iff_estimated Catalog _ {} (fun _ => .ok []) .empty ["a", "b", "c"] (some 2) (by decide)
  obtain ⟨out, hout⟩ := hiff.2 fun r _ => ⟨_, [], rfl, rfl⟩
  exact ⟨by decide, out, hout, happortioned out hout⟩

end

end Plan

end Apportion
