/-
  Splits: the references one worker reads, and the hosts where it reads them best.

  * `Split.of` makes a split; a repeated host counts once, where it comes first.
-/

namespace Apportion

/-- The work of one worker. -/
structure Split where
  /-- The references, in the order in which they are read. -/
  paths : List String
  /-- The hosts close to the data, the best first. -/
  hosts : List String
  /-- No host is named twice. -/
  distinct : hosts.Nodup
  deriving DecidableEq, Repr

namespace Split

/-- Among the first occurrences in a list no element comes twice. -/
theorem nodup_eraseDups (l : List String) : l.eraseDups.Nodup := by
  match l with
  | [] => simp
  | a :: as =>
    rw [List.eraseDups_cons, List.nodup_cons]
    exact ⟨by simp [List.mem_eraseDups], nodup_eraseDups _⟩
termination_by l.length
decreasing_by
  have := List.length_filter_le (fun b => !b == a) as
  simp only [List.length_cons]
  omega

/-- The split of `paths` for `hosts`, of which later repetitions are dropped. -/
def of (paths hosts : List String) : Split := ⟨paths, hosts.eraseDups, nodup_eraseDups hosts⟩

end Split

end Apportion
