/-
  The paths above a path.

  * `OnWay q p`: the steps of `q` are the first ones of `p`, from the same start.
  * `onWay_of_parent?`, `onWay_of_mem_lineage`: the paths above a path are on the way to it.
  * `OnWay.stepsFromRoot`: so they are on every disk.
-/
import Apportion.Disk.Lookup
import Apportion.Proofs.Path
import Mathlib.Data.List.DropRight

namespace Apportion

namespace Disk

/-- `q` is on the way to `p`: its steps are the first ones of `p`, from the same start. -/
structure OnWay (q p : Path) : Prop where
  start : q.isAbsolute = p.isAbsolute
  steps : stepsOf q <+: stepsOf p

variable {p q r : Path}

theorem OnWay.refl (p : Path) : OnWay p p := ⟨rfl, List.prefix_rfl⟩

theorem OnWay.trans (h : OnWay q p) (h' : OnWay r q) : OnWay r p :=
  ⟨h'.start.trans h.start, h'.steps.trans h.steps⟩

theorem OnWay.stepsFromRoot (h : OnWay q p) (d : Disk) :
    d.stepsFromRoot q <+: d.stepsFromRoot p := by
  simp only [Disk.stepsFromRoot, h.start]
  split
  · exact h.steps
  · exact (List.prefix_append_right_inj _).2 h.steps

theorem onWay_of_pieces {pieces more : List (List Char)}
    (hp : p.text.toList.splitOn '/' = more) (hq : q.text.toList.splitOn '/' = pieces)
    (hstart : q.isAbsolute = p.isAbsolute) (hfront : pieces <+: more) : OnWay q p := by
  refine ⟨hstart, ?_⟩
  rw [stepsOf, stepsOf, hp, hq]
  exact (hfront.filter _).map _

section
variable {first : List Char} {above steps : List (List Char)}

/-- The first piece of a relative path. -/
theorem onWay_of_first (hp : p.text.toList.splitOn '/' = first :: steps)
    (hrelative : p.isAbsolute = false) : OnWay ⟨String.ofList first⟩ p := by
  have hfirst : '/' ∉ first := Text.notMem_of_mem_splitOn (hp ▸ List.mem_cons_self)
  have hq : (String.ofList first).toList.splitOn '/' = [first] := by
    rw [String.toList_ofList, List.splitOn_eq_singleton hfirst]
  refine onWay_of_pieces hp hq ?_ (List.prefix_append [first] steps)
  rw [Bool.eq_iff_iff, Path.isAbsolute_iff, hq]
  simp [hrelative]

/-- The first piece of a path and some of those behind it. -/
theorem onWay_of_front (hp : p.text.toList.splitOn '/' = first :: steps) (habove : above ≠ [])
    (hfront : above <+: steps) :
    OnWay ⟨String.ofList (['/'].intercalate (first :: above))⟩ p := by
  have hfront' : first :: above <+: first :: steps := (List.prefix_cons_inj first).2 hfront
  have hsteps : steps ≠ [] := by
    rintro rfl
    exact habove (List.prefix_nil.1 hfront)
  have hq : (String.ofList (['/'].intercalate (first :: above))).toList.splitOn '/' =
      first :: above := by
    rw [String.toList_ofList]
    exact List.splitOn_intercalate '/' (fun piece hpiece =>
      Text.notMem_of_mem_splitOn (hp ▸ hfront'.subset hpiece)) (List.cons_ne_nil first above)
  refine onWay_of_pieces hp hq ?_ hfront'
  rw [Bool.eq_iff_iff, Path.isAbsolute_iff, Path.isAbsolute_iff, hq, hp]
  simp [hsteps, habove]

end

theorem front_dropEmptySteps (steps : List (List Char)) : Path.dropEmptySteps steps <+: steps :=
  List.rdropWhile_prefix ..

/-- **The path one component up is on the way.** -/
theorem onWay_of_parent? (h : p.parent? = some q) : OnWay q p := by
  unfold Path.parent? at h
  split at h
  · cases h
  · rename_i first steps hp
    have hkept := front_dropEmptySteps steps
    split at h
    · -- one piece counts, and nothing is left above it
      split at h
      · cases h
      · rename_i hrelative
        cases h
        rw [Bool.or_eq_true, not_or, Bool.not_eq_true] at hrelative
        exact ⟨hrelative.1.symm, List.nil_prefix⟩
    · split at h
      · cases h
        split
        · rename_i habsolute
          exact ⟨habsolute.symm, List.nil_prefix⟩
        · rename_i hrelative
          exact onWay_of_first hp (Bool.eq_false_iff.2 hrelative)
      · rename_i above habove
        cases h
        exact onWay_of_front hp habove
          ((front_dropEmptySteps _).trans ((List.dropLast_prefix _).trans hkept))

theorem onWay_of_mem_lineageWithin {fuel : Nat} (h : q ∈ lineageWithin fuel p) : OnWay q p := by
  induction fuel generalizing p with
  | zero => cases h
  | succ fuel ih =>
    unfold lineageWithin at h
    split at h
    · rw [List.mem_singleton] at h
      rw [h]
      exact .refl p
    · rename_i parent hparent
      rcases List.mem_cons.1 h with rfl | h
      · exact .refl q
      · exact (onWay_of_parent? hparent).trans (ih h)

/-- **All paths above a path are on the way to it.** -/
theorem onWay_of_mem_lineage (h : q ∈ lineage p) : OnWay q p := onWay_of_mem_lineageWithin h

end Disk

end Apportion
