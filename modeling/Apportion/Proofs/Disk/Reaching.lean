/-
  Plain paths below a directory, and where they lead.

  * `mem_names_iff`: the entries of a directory are what lies right below it.
  * `Reaches d p l`: a path leads to a location, whatever is there.
  * `Grows.reaches`, `Reaches.front`: it still does when the disk grows, and all paths that it starts
    with lead to the locations above.
  * `endsInSlash_join`: a plain path never asks for a directory.
-/
import Apportion.Proofs.Disk.Saving

namespace Apportion

open Sequence

namespace Disk

variable {d d' : Disk} {p q base : Path} {loc l : Location}

theorem mem_names_iff {name : String} : name ∈ d.names loc ↔ (d.find? (name :: loc)).isSome := by
  rw [names, find?, List.reverse_cons, Tree.at?_append]
  cases d.root.at? loc.reverse with
  | none => simp
  | some t =>
    cases t with
    | file content => simp [Tree.at?]
    | directory entries =>
      rw [← Keyed.isSome_lookup_iff, Option.bind_some, Option.isSome_map]
      simp only [Tree.at?]
      cases entries.lookup name <;> simp

/-! ## Plain paths below a directory -/

theorem checkSpelling_eq_ok_iff : checkSpelling p = .ok () ↔
    Char.ofNat 0 ∉ p.text.toList ∧ p.text.toList ≠ [] ∧ p.text.utf8ByteSize ≤ maxPath := by
  unfold checkSpelling
  by_cases hzero : Char.ofNat 0 ∈ p.text.toList
  · simp [hzero]
  by_cases hempty : p.text = ""
  · simp [hempty]
  by_cases hlong : maxPath < p.text.utf8ByteSize
  · simp [hzero, hempty, hlong]
  · simp [hzero, hempty, Nat.not_lt.1 hlong]

theorem endsInSlash_join (hq : q.IsPlain) : endsInSlash (p.join q) = false := by
  obtain ⟨lead, hlead⟩ := Path.exists_text_join p
  rw [endsInSlash, hlead q hq.not_isAbsolute, decide_eq_false_iff_not, String.toList_append,
    List.getLast?_append_of_ne_nil _ hq.toList_ne_nil]
  exact hq.getLast?_ne

/-- A path leads to a location: it is spelled as paths are, and its steps walk there. -/
structure Reaches (d : Disk) (p : Path) (l : Location) : Prop where
  spelling : checkSpelling p = .ok ()
  walk : d.walk (d.stepsFromRoot p) = .ok l

theorem Grows.reaches (h : Grows loc d d') (hp : d.Reaches p l) : d'.Reaches p l :=
  ⟨hp.spelling, by rw [h.stepsFromRoot]; exact h.walk hp.walk⟩

/-- If a plain path below a directory is reached, so is every one that it starts with. -/
theorem Reaches.front (h : d.Reaches (base.join p) l)
    (hbase : d.walk (d.stepsFromRoot base) = .ok loc) (hp : p.IsPlain) (hfront : q.names <+: p.names) :
    d.Reaches (base.join q) (q.names.reverse ++ loc) := by
  have hq : q.IsPlain := hp.of_names_prefix hfront
  constructor
  · obtain ⟨lead, hlead⟩ := Path.exists_text_join base
    obtain ⟨rest, hrest⟩ := Path.text_of_names_prefix hfront
    obtain ⟨hzero, -, hlong⟩ := checkSpelling_eq_ok_iff.1 h.spelling
    rw [hlead p hp.not_isAbsolute, hrest, ← String.append_assoc] at hzero hlong
    rw [checkSpelling_eq_ok_iff, hlead q hq.not_isAbsolute]
    refine ⟨fun hmem => hzero ?_, ?_, ?_⟩
    · rw [String.toList_append]
      exact List.mem_append_left _ hmem
    · rw [String.toList_append]
      exact List.append_ne_nil_of_right_ne_nil _ hq.toList_ne_nil
    · rw [String.utf8ByteSize_append] at hlong
      omega
  · have hwalk := h.walk
    obtain ⟨more, hmore⟩ := hfront
    rw [stepsFromRoot_join d hp, ← hmore, ← List.append_assoc, ← stepsFromRoot_join d hq,
      walk_append] at hwalk
    obtain ⟨mid, hmid, -⟩ := bind_eq_ok_iff.1 hwalk
    obtain ⟨above, habove, rfl⟩ := walk_join hq hmid
    cases hbase.symm.trans habove
    exact hmid

end Disk

end Apportion
