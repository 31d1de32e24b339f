/-
  Stores that accumulating cannot tell apart.

  * `Alike`: ranges end at the same byte, hosts hold the same of them, and asking for blocks is
    answered or fails alike.
  * `Alike.exists_accumulate`: accumulating then succeeds on both stores or on none, for
    descriptors in any order, and `Alike.tally` says that it counts the same.
  * `Alike.accumulate_error`: and it fails as the same first descriptor does.
-/
import Apportion.Proofs.Locality.Accumulate

namespace Apportion

namespace Locality

variable {σ τ : Type} [Store σ] [Store τ]

/-- Two stores, with the blocks each has, between which accumulating finds no difference. -/
structure Alike (s : σ) (layout : String → List Block) (s' : τ) (layout' : String → List Block) :
    Prop where
  stop : ∀ source d, stopOf s source d = stopOf s' source d
  bytes : ∀ source host start stop, Block.bytesFor host start stop (layout source) =
    Block.bytesFor host start stop (layout' source)
  told : ∀ source start length, (Store.blocks s ⟨source⟩ start length).map (fun _ => ()) =
    (Store.blocks s' ⟨source⟩ start length).map fun _ => ()

section
variable {s : σ} {s' : τ} {layout layout' : String → List Block} {ds ds' : List Descriptor}

theorem Alike.symm (h : Alike s layout s' layout') : Alike s' layout' s layout where
  stop source d := (h.stop source d).symm
  bytes source host start stop := (h.bytes source host start stop).symm
  told source start length := (h.told source start length).symm

variable (h : Alike s layout s' layout')
include h

/-! ## What one descriptor needs -/

theorem Alike.blocks_ok {source : String} {start length : UInt64}
    (hbs : ∃ bs, Store.blocks s ⟨source⟩ start length = .ok bs) :
    ∃ bs, Store.blocks s' ⟨source⟩ start length = .ok bs := by
  obtain ⟨bs, hbs⟩ := hbs
  have htold := h.told source start length
  rw [hbs] at htold
  obtain ⟨bs', hbs', -⟩ := Sequence.map_eq_ok_iff.1 htold.symm
  exact ⟨bs', hbs'⟩

theorem Alike.blocks_error {source : String} {start length : UInt64} {failure : Failure}
    (herror : Store.blocks s ⟨source⟩ start length = .error failure) :
    Store.blocks s' ⟨source⟩ start length = .error failure := by
  have htold := h.told source start length
  rw [herror] at htold
  cases hbs : Store.blocks s' ⟨source⟩ start length with
  | error failure' =>
    rw [hbs] at htold
    cases htold
    rfl
  | ok bs =>
    rw [hbs] at htold
    cases htold

theorem Alike.rangeLength_eq : rangeLength s = rangeLength s' := by
  funext d
  simp only [rangeLength, h.stop]

theorem Alike.rangeBytes_eq (host : String) :
    rangeBytes s layout host = rangeBytes s' layout' host := by
  funext d
  simp only [rangeBytes, h.stop, h.bytes]

theorem Alike.lengthSum_eq (hds : ds.Perm ds') : lengthSum s ds = lengthSum s' ds' := by
  rw [lengthSum, lengthSum, h.rangeLength_eq]
  exact (hds.map _).sum_eq

theorem Alike.byteSum_eq (hds : ds.Perm ds') (host : String) :
    byteSum s layout host ds = byteSum s' layout' host ds' := by
  rw [byteSum, byteSum, h.rangeBytes_eq]
  exact (hds.map _).sum_eq

theorem Alike.readable {source : String} {d : Descriptor} {stop : UInt64}
    (hr : Readable s source d stop) : Readable s' source d stop :=
  ⟨h.stop source d ▸ hr.1, hr.2.1, fun hlt => h.blocks_ok (hr.2.2 hlt)⟩

/-! ## Runs -/

theorem Alike.admitted (hds : ds.Perm ds') (ha : Admitted s layout ds) :
    Admitted s' layout' ds' where
  readable d hd source hsource :=
    (ha.readable d (hds.mem_iff.2 hd) source hsource).imp fun _ => h.readable
  total := h.lengthSum_eq hds ▸ ha.total
  shares host := h.byteSum_eq hds host ▸ ha.shares host

theorem Alike.refused {d : Descriptor} {failure : Failure}
    (hr : Refused s layout ds d failure) : Refused s' layout' ds d failure := by
  have hlength := h.lengthSum_eq (.refl (ds ++ [d]))
  have hbytes := h.byteSum_eq (.refl (ds ++ [d]))
  cases hr with
  | noEnd hsource hstop => exact .noEnd hsource (h.stop _ d ▸ hstop)
  | inverted hsource hstop hlt => exact .inverted hsource (h.stop _ d ▸ hstop) hlt
  | total hsource hstop hle hbig => exact .total hsource (h.stop _ d ▸ hstop) hle (hlength ▸ hbig)
  | noBlocks hsource hstop hlt htotal hblocks =>
    exact .noBlocks hsource (h.stop _ d ▸ hstop) hlt (hlength ▸ htotal) (h.blocks_error hblocks)
  | share hsource hstop hlt htotal hblocks hbig =>
    obtain ⟨bs', hbs'⟩ := h.blocks_ok ⟨_, hblocks⟩
    exact .share hsource (h.stop _ d ▸ hstop) hlt (hlength ▸ htotal) hbs' (hbytes _ ▸ hbig)

variable (hl : LaidOut s layout) (hl' : LaidOut s' layout')
include hl hl'

theorem Alike.exists_accumulate (hds : ds.Perm ds') :
    (∃ t, accumulate s ds = .ok t) ↔ ∃ t, accumulate s' ds' = .ok t := by
  rw [exists_accumulate_eq_ok_iff hl, exists_accumulate_eq_ok_iff hl']
  exact ⟨h.admitted hds, h.symm.admitted hds.symm⟩

/-- Tallies of alike stores tell the same, apart from the order of hosts. -/
theorem Alike.tally (hds : ds.Perm ds') {t t' : Tally} (ht : accumulate s ds = .ok t)
    (ht' : accumulate s' ds' = .ok t') :
    t.total = t'.total ∧ ∀ host, t.get? host = t'.get? host := by
  have hcounted' := counted_of_accumulate hl' ht'
  rw [Counted, ← h.lengthSum_eq hds, ← funext (h.byteSum_eq hds)] at hcounted'
  exact (counted_of_accumulate hl ht).same hcounted'

theorem Alike.accumulate_error {failure : Failure} (herror : accumulate s ds = .error failure) :
    accumulate s' ds = .error failure := by
  obtain ⟨before, d, after, rfl, hbefore, hrefused⟩ := (accumulate_eq_error_iff hl).1 herror
  exact (accumulate_eq_error_iff hl').2
    ⟨before, d, after, rfl, h.admitted (.refl before) hbefore, h.refused hrefused⟩

end

end Locality

end Apportion
