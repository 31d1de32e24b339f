/-
  The hosts of a split.

  * `Split.hosts_of`: they are those it was made for, in the order of their first occurrences.
  * `Split.eq_of_iff`: with the references they are all there is to a split.
-/
import Apportion.Proofs.FirstOccurrences
import Apportion.Split.Basic

namespace Apportion

/-- The hosts of a split are those it was made for, each where it comes first. -/
theorem Split.hosts_of (paths hosts : List String) :
    FirstOccurrences hosts (Split.of paths hosts).hosts :=
  firstOccurrences_eraseDups hosts

theorem Split.eq_of_iff {s : Split} {paths hosts : List String} :
    s = .of paths hosts ↔ s.paths = paths ∧ FirstOccurrences hosts s.hosts := by
  constructor
  · rintro rfl
    exact ⟨rfl, hosts_of paths hosts⟩
  · rintro ⟨rfl, hfirsts⟩
    obtain ⟨paths, firsts, hdistinct⟩ := s
    cases hfirsts.unique (hosts_of paths hosts)
    rfl

end Apportion
