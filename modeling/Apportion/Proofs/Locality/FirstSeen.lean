/-
  In which order hosts come up while descriptors are gone through.

  * `Block.hostsIn`: the hosts of the blocks that meet a range, block by block.
  * `creditedHosts`: the hosts credited for a descriptor, one credit after the other.
  * `keys_of_accumulate`: a tally lists the hosts in the order of their first credit.
  * `tally_eq`: runs that count the same and meet hosts in the same order end in the same tally.
-/
import Apportion.Proofs.Locality.Accumulate
import Apportion.Proofs.Tally.Order

namespace Apportion

namespace Block

/-- The hosts of the blocks with a byte in `[start, stop)`, block by block. -/
def hostsIn (start stop : UInt64) (bs : List Block) : List String :=
  (bs.filter fun b => 0 < b.overlap start stop).flatMap Block.hosts

theorem zero_lt_overlap_iff {b : Block} {start stop : UInt64} :
    0 < b.overlap start stop ↔ max b.offset.toNat start.toNat < min b.stop.toNat stop.toNat := by
  rw [UInt64.lt_iff_toNat_lt, UInt64.toNat_zero, toNat_overlap]
  omega

theorem hostsIn_filter (start stop : UInt64) (bs : List Block) :
    hostsIn start stop (bs.filter fun b => 0 < b.overlap start stop) = hostsIn start stop bs := by
  rw [hostsIn, List.filter_filter]
  simp only [Bool.and_self]
  rfl

theorem hostsIn_cons (start stop : UInt64) (b : Block) (bs : List Block) :
    hostsIn start stop (b :: bs) =
      (if 0 < b.overlap start stop then b.hosts else []) ++ hostsIn start stop bs := by
  by_cases h : 0 < b.overlap start stop
  · rw [hostsIn, List.filter_cons_of_pos (by simpa using h), List.flatMap_cons, if_pos h]
    rfl
  · rw [hostsIn, List.filter_cons_of_neg (by simpa using h), if_neg h]
    rfl

/-- Blocks behind a range have no host in it. -/
theorem hostsIn_of_behind {start stop : UInt64} {bs : List Block}
    (h : ∀ b ∈ bs, stop.toNat ≤ max b.offset.toNat start.toNat) : hostsIn start stop bs = [] := by
  have hnone : ∀ b ∈ bs, ¬0 < b.overlap start stop := by
    intro b hb
    rw [zero_lt_overlap_iff]
    have := h b hb
    omega
  rw [hostsIn, List.filter_eq_nil_iff.2 fun b hb => by simpa using hnone b hb, List.flatMap_nil]

/-- No host comes up for an empty range. -/
theorem hostsIn_of_le {start stop : UInt64} (h : stop ≤ start) (bs : List Block) :
    hostsIn start stop bs = [] := by
  rw [UInt64.le_iff_toNat_le] at h
  exact hostsIn_of_behind fun b _ => le_max_of_le_right h

theorem map_fst_credits (start stop : UInt64) (bs : List Block) :
    (bs.flatMap (credits start stop)).map Prod.fst = hostsIn start stop bs := by
  induction bs with
  | nil => rfl
  | cons b bs ih =>
    rw [List.flatMap_cons, List.map_append, ih, hostsIn_cons, credits]
    by_cases hb : b.overlap start stop = 0
    · rw [if_pos hb, if_neg (by simp [hb]), List.map_nil]
    · rw [if_neg hb, if_pos (UInt64.pos_iff_ne_zero.2 hb), List.map_map]
      exact congrArg (· ++ _) (List.map_id _)

end Block

namespace Locality

variable {σ τ : Type} [Store σ] [Store τ]

/-- The hosts credited for a descriptor, one credit after the other. -/
def creditedHosts (s : σ) (layout : String → List Block) (d : Descriptor) : List String :=
  match d.source with
  | none => []
  | some source =>
    match stopOf s source d with
    | .ok stop => Block.hostsIn d.start stop (layout source)
    | .error _ => []

section
variable {s : σ} {layout : String → List Block} {d : Descriptor} {source : String}
  {t t' : Tally}

theorem creditedHosts_of_none (h : d.source = none) : creditedHosts s layout d = [] := by
  simp only [creditedHosts, h]

theorem creditedHosts_of_stop {stop : UInt64} (h : d.source = some source)
    (hstop : stopOf s source d = .ok stop) :
    creditedHosts s layout d = Block.hostsIn d.start stop (layout source) := by
  simp only [creditedHosts, h, hstop]

theorem within_eq_ok_iff {t? : Option Tally} : within t? = .ok t ↔ t? = some t := by
  cases t? <;> simp [within]

theorem keys_creditRange (hl : LaidOut s layout) {start stop : UInt64}
    (h : creditRange s source start stop t = .ok t') :
    t'.shares.keys = (t.shares.keys ++ Block.hostsIn start stop (layout source)).eraseDups := by
  have hdistinct := eraseDups_of_nodup t.shares.distinct
  by_cases hinv : stop < start
  · rw [creditRange, if_pos hinv] at h
    cases h
  rcases UInt64.lt_or_eq_of_le (UInt64.not_lt.1 hinv) with hlt | rfl
  · rw [creditRange_of_lt hlt] at h
    obtain ⟨t₁, ht₁, h⟩ := Sequence.bind_eq_ok_iff.1 h
    obtain ⟨bs, hbs, h⟩ := Sequence.bind_eq_ok_iff.1 h
    rw [Tally.keys_addAll (within_eq_ok_iff.1 h), Tally.addRange_eq_some (within_eq_ok_iff.1 ht₁),
      Block.map_fst_credits, hl source start stop bs hlt hbs, Block.hostsIn_filter]
  · rw [creditRange_of_empty] at h
    rw [Tally.addRange_eq_some (within_eq_ok_iff.1 h), Block.hostsIn_of_le (UInt64.le_refl start),
      List.append_nil]
    exact hdistinct.symm

theorem keys_creditDescriptor (hl : LaidOut s layout) (h : creditDescriptor s t d = .ok t') :
    t'.shares.keys = (t.shares.keys ++ creditedHosts s layout d).eraseDups := by
  cases hsource : d.source with
  | none =>
    rw [creditDescriptor_of_none hsource] at h
    cases h
    rw [creditedHosts_of_none hsource, List.append_nil]
    exact (eraseDups_of_nodup t.shares.distinct).symm
  | some source =>
    cases hstop : stopOf s source d with
    | error failure =>
      simp only [creditDescriptor, hsource, hstop] at h
      cases h
    | ok stop =>
      rw [creditDescriptor_of_stop hsource hstop] at h
      rw [creditedHosts_of_stop hsource hstop]
      exact keys_creditRange hl h

/-- **A tally lists the hosts in the order of their first credit.** -/
theorem keys_of_accumulate (hl : LaidOut s layout) {ds : List Descriptor}
    (h : accumulate s ds = .ok t) :
    t.shares.keys = (ds.flatMap (creditedHosts s layout)).eraseDups := by
  induction ds using List.reverseRecOn generalizing t with
  | nil =>
    cases h
    rfl
  | append_singleton ds d ih =>
    rw [accumulate, List.foldlM_append] at h
    obtain ⟨t₁, ht₁, h⟩ := Sequence.bind_eq_ok_iff.1 h
    obtain ⟨t₂, ht₂, h⟩ := Sequence.foldlM_cons_eq_ok_iff.1 h
    cases h
    rw [keys_creditDescriptor hl ht₂, List.flatMap_append, List.flatMap_singleton]
    refine eraseDups_append_congr ?_ rfl
    rw [ih ht₁]
    exact eraseDups_of_nodup (firstOccurrences_eraseDups _).distinct

end

/-- **Runs that count the same and meet hosts in the same order end in the same tally.** -/
theorem tally_eq {s : σ} {s' : τ} {layout layout' : String → List Block}
    (hl : LaidOut s layout) (hl' : LaidOut s' layout') {ds ds' : List Descriptor} {t t' : Tally}
    (h : accumulate s ds = .ok t) (h' : accumulate s' ds' = .ok t')
    (htotal : lengthSum s ds = lengthSum s' ds')
    (hshares : ∀ host, byteSum s layout host ds = byteSum s' layout' host ds')
    (hfirst : (ds.flatMap (creditedHosts s layout)).eraseDups =
      (ds'.flatMap (creditedHosts s' layout')).eraseDups) : t = t' := by
  have hcounted' := counted_of_accumulate hl' h'
  rw [Counted, ← htotal, ← funext hshares] at hcounted'
  obtain ⟨htotal_eq, hget⟩ := (counted_of_accumulate hl h).same hcounted'
  refine Tally.eq_of_get?_eq htotal_eq ?_ hget
  rw [keys_of_accumulate hl h, keys_of_accumulate hl' h', hfirst]

end Locality

end Apportion
