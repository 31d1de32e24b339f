/-
  Accumulating counts bytes.

  For a store that tells the blocks of a `layout`:

  * `Admitted`: every descriptor can be read, and no sum of lengths or of bytes is too large.
  * `Refused`: what a descriptor breaks first, given those before it.
  * `accumulate_of_admitted`: admitted descriptors are counted byte by byte.
  * `accumulate_of_refused`: the first descriptor refused decides how accumulating fails.
  * `admitted_or_refused`: there is nothing else.
-/
import Apportion.Proofs.Locality.Bytes
import Apportion.Proofs.Sequence

namespace Apportion

namespace Locality

open Quantity Sequence

variable {σ : Type} [Store σ]

section
variable (s : σ) (layout : String → List Block)

/-- The blocks that the store tells of a range of a source are those of `layout` with a byte in
    it. -/
def LaidOut : Prop :=
  ∀ source (start stop : UInt64) bs, start < stop →
    Store.blocks s ⟨source⟩ start (stop - start) = .ok bs →
      bs = (layout source).filter fun b => 0 < b.overlap start stop

/-- The number of bytes in the range of a descriptor; none without a source. -/
def rangeLength (d : Descriptor) : Nat :=
  match d.source with
  | none => 0
  | some source =>
    match stopOf s source d with
    | .ok stop => stop.toNat - d.start.toNat
    | .error _ => 0

/-- The bytes in the range of a descriptor that the blocks of its source hold for a host. -/
def rangeBytes (host : String) (d : Descriptor) : Nat :=
  match d.source with
  | none => 0
  | some source =>
    match stopOf s source d with
    | .ok stop => Block.bytesFor host d.start.toNat stop.toNat (layout source)
    | .error _ => 0

/-- The lengths of all ranges together. -/
def lengthSum (ds : List Descriptor) : Nat := (ds.map (rangeLength s)).sum

/-- The bytes of a host in all ranges together. -/
def byteSum (host : String) (ds : List Descriptor) : Nat := (ds.map (rangeBytes s layout host)).sum

/-- The range of a descriptor on `source` ends at `stop`, not before it starts, and unless it is
    empty the store tells its blocks. -/
def Readable (source : String) (d : Descriptor) (stop : UInt64) : Prop :=
  stopOf s source d = .ok stop ∧ d.start ≤ stop ∧
    (d.start < stop → ∃ bs, Store.blocks s ⟨source⟩ d.start (stop - d.start) = .ok bs)

/-- Every descriptor with a source can be read, and all sums are quantities. -/
structure Admitted (ds : List Descriptor) : Prop where
  readable : ∀ d ∈ ds, ∀ source, d.source = some source → ∃ stop, Readable s source d stop
  total : lengthSum s ds ≤ largest
  shares : ∀ host, byteSum s layout host ds ≤ largest

/-- What a descriptor breaks first, after those `before` it, and how that is answered. -/
inductive Refused (before : List Descriptor) (d : Descriptor) : Failure → Prop where
  | noEnd {source failure} : d.source = some source → stopOf s source d = .error failure →
      Refused before d failure
  | inverted {source stop} : d.source = some source → stopOf s source d = .ok stop →
      stop < d.start →
      Refused before d
        (.descriptor source s!"range end {stop} is before range start {d.start}")
  | total {source stop} : d.source = some source → stopOf s source d = .ok stop →
      d.start ≤ stop → largest < lengthSum s (before ++ [d]) → Refused before d .sumOverflow
  | noBlocks {source stop failure} : d.source = some source → stopOf s source d = .ok stop →
      d.start < stop → lengthSum s (before ++ [d]) ≤ largest →
      Store.blocks s ⟨source⟩ d.start (stop - d.start) = .error failure → Refused before d failure
  | share {source stop bs host} : d.source = some source → stopOf s source d = .ok stop →
      d.start < stop → lengthSum s (before ++ [d]) ≤ largest →
      Store.blocks s ⟨source⟩ d.start (stop - d.start) = .ok bs →
      largest < byteSum s layout host (before ++ [d]) → Refused before d .sumOverflow

end

/-! ## Sums -/

section
variable {s : σ} {layout : String → List Block} {d : Descriptor} {source : String}

@[simp] theorem lengthSum_append (ds ds' : List Descriptor) :
    lengthSum s (ds ++ ds') = lengthSum s ds + lengthSum s ds' := by
  simp only [lengthSum, List.map_append, List.sum_append]

@[simp] theorem byteSum_append (host : String) (ds ds' : List Descriptor) :
    byteSum s layout host (ds ++ ds') = byteSum s layout host ds + byteSum s layout host ds' := by
  simp only [byteSum, List.map_append, List.sum_append]

@[simp] theorem lengthSum_singleton (d : Descriptor) : lengthSum s [d] = rangeLength s d := by
  simp only [lengthSum, List.map_cons, List.map_nil, List.sum_cons, List.sum_nil, Nat.add_zero]

@[simp] theorem byteSum_singleton (host : String) (d : Descriptor) :
    byteSum s layout host [d] = rangeBytes s layout host d := by
  simp only [byteSum, List.map_cons, List.map_nil, List.sum_cons, List.sum_nil, Nat.add_zero]

theorem rangeLength_of_none (h : d.source = none) : rangeLength s d = 0 := by
  simp only [rangeLength, h]

theorem rangeBytes_of_none (host : String) (h : d.source = none) :
    rangeBytes s layout host d = 0 := by
  simp only [rangeBytes, h]

theorem rangeLength_of_stop {stop : UInt64} (h : d.source = some source)
    (hstop : stopOf s source d = .ok stop) : rangeLength s d = stop.toNat - d.start.toNat := by
  simp only [rangeLength, h, hstop]

theorem rangeBytes_of_stop {stop : UInt64} (host : String) (h : d.source = some source)
    (hstop : stopOf s source d = .ok stop) :
    rangeBytes s layout host d = Block.bytesFor host d.start.toNat stop.toNat (layout source) := by
  simp only [rangeBytes, h, hstop]

end

/-! ## One descriptor -/

section
variable {s : σ} {layout : String → List Block} {before : List Descriptor} {d : Descriptor}
  {t : Tally}

/-- What a tally has counted after the descriptors `ds`. -/
def Counted (s : σ) (layout : String → List Block) (ds : List Descriptor) (t : Tally) : Prop :=
  t.Counts (lengthSum s ds) fun host => byteSum s layout host ds

theorem creditDescriptor_of_none (h : d.source = none) : creditDescriptor s t d = .ok t := by
  simp only [creditDescriptor, h]

theorem creditDescriptor_of_stop {source : String} {stop : UInt64} (h : d.source = some source)
    (hstop : stopOf s source d = .ok stop) :
    creditDescriptor s t d = creditRange s source d.start stop t := by
  simp only [creditDescriptor, h, hstop]
  rfl

theorem creditRange_of_empty {source : String} {n : UInt64} :
    creditRange s source n n t = within (t.addRange 0) := by
  rw [creditRange, if_neg (UInt64.lt_irrefl n)]
  simp only [UInt64.sub_self, if_pos]
  exact bind_pure _

theorem creditRange_of_lt {source : String} {start stop : UInt64} (h : start < stop) :
    creditRange s source start stop t =
      within (t.addRange (stop - start)) >>= fun t =>
        Store.blocks s ⟨source⟩ start (stop - start) >>= fun bs =>
          within (t.addAll (bs.flatMap (Block.credits start stop))) := by
  have hne : stop - start ≠ 0 := by
    intro e
    have hsub := UInt64.toNat_sub_of_le stop start (UInt64.le_of_lt h)
    rw [e, UInt64.toNat_zero] at hsub
    have := UInt64.lt_iff_toNat_lt.1 h
    omega
  rw [creditRange, if_neg (UInt64.not_lt.2 (UInt64.le_of_lt h))]
  simp only [if_neg hne, foldlM_creditBlock]

theorem creditRange_of_addRange_eq_none {source : String} {start stop : UInt64}
    (hle : start ≤ stop) (h : t.addRange (stop - start) = none) :
    creditRange s source start stop t = .error .sumOverflow := by
  rw [creditRange, if_neg (UInt64.not_lt.2 hle)]
  simp only [h]
  rfl

/-- The credits of blocks told of a range give a host the bytes that the layout holds for it. -/
theorem credited_of_blocks (hl : LaidOut s layout) {source : String} {start stop : UInt64}
    {bs : List Block} (hlt : start < stop)
    (hbs : Store.blocks s ⟨source⟩ start (stop - start) = .ok bs) (host : String) :
    Tally.credited host (bs.flatMap (Block.credits start stop)) =
      Block.bytesFor host start.toNat stop.toNat (layout source) := by
  rw [Block.credited_flatMap_credits, hl source start stop bs hlt hbs, Block.bytesFor_filter]

theorem length_fits {source : String} {stop : UInt64} (hsource : d.source = some source)
    (hstop : stopOf s source d = .ok stop) (hlt : d.start < stop)
    (h : lengthSum s (before ++ [d]) ≤ largest) :
    lengthSum s before + (stop - d.start).toNat ≤ largest := by
  rw [UInt64.toNat_sub_of_le stop d.start (UInt64.le_of_lt hlt),
    ← rangeLength_of_stop hsource hstop]
  simpa only [lengthSum_append, lengthSum_singleton] using h

/-- An admitted descriptor is counted. -/
theorem creditDescriptor_of_admitted (hl : LaidOut s layout) (ht : Counted s layout before t)
    (h : Admitted s layout (before ++ [d])) :
    ∃ t', creditDescriptor s t d = .ok t' ∧ Counted s layout (before ++ [d]) t' := by
  have htotal := h.total
  have hshares := h.shares
  simp only [Counted, lengthSum_append, byteSum_append, lengthSum_singleton, byteSum_singleton]
    at htotal hshares ht ⊢
  cases hsource : d.source with
  | none =>
    simp only [rangeLength_of_none hsource, rangeBytes_of_none _ hsource, Nat.add_zero]
    exact ⟨t, creditDescriptor_of_none hsource, ht⟩
  | some source =>
    obtain ⟨stop, hstop, hle, hplaced⟩ := h.readable d (by simp) source hsource
    have hsub := UInt64.toNat_sub_of_le stop d.start hle
    simp only [rangeLength_of_stop hsource hstop, rangeBytes_of_stop _ hsource hstop, ← hsub]
      at htotal hshares ⊢
    obtain ⟨t₁, ht₁, hcounts⟩ := ht.addRange htotal
    rw [creditDescriptor_of_stop hsource hstop]
    rcases UInt64.lt_or_eq_of_le hle with hlt | rfl
    · obtain ⟨bs, hbs⟩ := hplaced hlt
      have hcredited := credited_of_blocks hl hlt hbs
      obtain ⟨t₂, ht₂, hcounts₂⟩ := hcounts.addAll (Block.ne_zero_of_mem_flatMap_credits bs)
        (fun host => by rw [hcredited]; exact hshares host)
      simp only [hcredited] at hcounts₂
      rw [creditRange_of_lt hlt, ht₁]
      exact ⟨t₂, by simp only [hbs, ht₂, within, bind, Except.bind], hcounts₂⟩
    · rw [creditRange_of_empty, ← UInt64.sub_self, ht₁]
      simp only [Block.bytesFor_self, Nat.add_zero]
      exact ⟨t₁, rfl, hcounts⟩

/-- A refused descriptor is answered with what it breaks. -/
theorem creditDescriptor_of_refused (hl : LaidOut s layout) (ht : Counted s layout before t)
    {failure : Failure} (h : Refused s layout before d failure) :
    creditDescriptor s t d = .error failure := by
  cases h with
  | noEnd hsource hstop =>
    simp only [creditDescriptor, hsource, hstop]
    rfl
  | inverted hsource hstop hlt =>
    rw [creditDescriptor_of_stop hsource hstop, creditRange, if_pos hlt]
  | @total source stop hsource hstop hle hbig =>
    rw [creditDescriptor_of_stop hsource hstop]
    refine creditRange_of_addRange_eq_none hle (ht.addRange_eq_none ?_)
    rw [UInt64.toNat_sub_of_le stop d.start hle, ← rangeLength_of_stop hsource hstop]
    simpa only [lengthSum_append, lengthSum_singleton] using hbig
  | @noBlocks source stop failure hsource hstop hlt htotal hblocks =>
    obtain ⟨t₁, ht₁, -⟩ := ht.addRange (length_fits hsource hstop hlt htotal)
    rw [creditDescriptor_of_stop hsource hstop, creditRange_of_lt hlt, ht₁]
    simp only [hblocks]
    rfl
  | @share source stop bs host hsource hstop hlt htotal hblocks hbig =>
    obtain ⟨t₁, ht₁, hcounts⟩ := ht.addRange (length_fits hsource hstop hlt htotal)
    have hnone : t₁.addAll (bs.flatMap (Block.credits d.start stop)) = none := by
      refine hcounts.addAll_eq_none (Block.ne_zero_of_mem_flatMap_credits bs) host ?_
      rw [credited_of_blocks hl hlt hblocks, ← rangeBytes_of_stop host hsource hstop]
      simpa only [byteSum_append, byteSum_singleton] using hbig
    rw [creditDescriptor_of_stop hsource hstop, creditRange_of_lt hlt, ht₁]
    simp only [hblocks, within, hnone, bind, Except.bind]

theorem Admitted.append (h : Admitted s layout before)
    (hread : ∀ source, d.source = some source → ∃ stop, Readable s source d stop)
    (htotal : lengthSum s (before ++ [d]) ≤ largest)
    (hshares : ∀ host, byteSum s layout host (before ++ [d]) ≤ largest) :
    Admitted s layout (before ++ [d]) := by
  refine ⟨fun d' hd' => ?_, htotal, hshares⟩
  rcases List.mem_append.1 hd' with hd' | hd'
  · exact h.readable d' hd'
  · rw [List.mem_singleton.1 hd']
    exact hread

/-- After admitted descriptors one more is admitted, or it is refused. -/
theorem Admitted.append_or_refused (h : Admitted s layout before) (d : Descriptor) :
    Admitted s layout (before ++ [d]) ∨ ∃ failure, Refused s layout before d failure := by
  cases hsource : d.source with
  | none =>
    left
    refine h.append (fun source he => by rw [hsource] at he; cases he) ?_ fun host => ?_
    · rw [lengthSum_append, lengthSum_singleton, rangeLength_of_none hsource]
      exact h.total
    · rw [byteSum_append, byteSum_singleton, rangeBytes_of_none host hsource]
      exact h.shares host
  | some source =>
    cases hstop : stopOf s source d with
    | error failure => exact Or.inr ⟨_, .noEnd hsource hstop⟩
    | ok stop =>
      by_cases hinv : stop < d.start
      · exact Or.inr ⟨_, .inverted hsource hstop hinv⟩
      have hle := UInt64.not_lt.1 hinv
      by_cases htotal : largest < lengthSum s (before ++ [d])
      · exact Or.inr ⟨_, .total hsource hstop hle htotal⟩
      rw [Nat.not_lt] at htotal
      have hread : (d.start < stop →
          ∃ bs, Store.blocks s ⟨source⟩ d.start (stop - d.start) = .ok bs) →
          ∀ source', d.source = some source' → ∃ stop, Readable s source' d stop := by
        intro hplaced source' he
        cases hsource.symm.trans he
        exact ⟨stop, hstop, hle, hplaced⟩
      rcases UInt64.lt_or_eq_of_le hle with hlt | heq
      · cases hblocks : Store.blocks s ⟨source⟩ d.start (stop - d.start) with
        | error failure => exact Or.inr ⟨_, .noBlocks hsource hstop hlt htotal hblocks⟩
        | ok bs =>
          by_cases hshares : ∀ host, byteSum s layout host (before ++ [d]) ≤ largest
          · exact Or.inl (h.append (hread fun _ => ⟨bs, hblocks⟩) htotal hshares)
          · obtain ⟨host, hhost⟩ := not_forall.1 hshares
            exact Or.inr
              ⟨_, .share hsource hstop hlt htotal hblocks (Nat.lt_of_not_le hhost)⟩
      · -- an empty range credits nobody
        refine Or.inl (h.append (hread fun hlt => absurd (heq ▸ hlt) (UInt64.lt_irrefl _)) htotal
          fun host => ?_)
        rw [byteSum_append, byteSum_singleton, rangeBytes_of_stop host hsource hstop, ← heq,
          Block.bytesFor_self]
        exact h.shares host

end

/-! ## A run over descriptors -/

section
variable {s : σ} {layout : String → List Block}

theorem accumulate_append_cons {before after : List Descriptor} {d : Descriptor} {t : Tally}
    (h : accumulate s before = .ok t) :
    accumulate s (before ++ d :: after) =
      creditDescriptor s t d >>= fun t => after.foldlM (creditDescriptor s) t := by
  rw [accumulate] at h
  rw [accumulate, List.foldlM_append, h]
  rfl

theorem Admitted.of_append {before after : List Descriptor}
    (h : Admitted s layout (before ++ after)) : Admitted s layout before where
  readable d hd := h.readable d (List.mem_append_left _ hd)
  total := by
    have := h.total
    rw [lengthSum_append] at this
    omega
  shares host := by
    have := h.shares host
    rw [byteSum_append] at this
    omega

theorem admitted_nil : Admitted s layout [] :=
  ⟨by simp, Nat.zero_le _, fun _ => Nat.zero_le _⟩

/-- **Admitted descriptors are counted byte by byte.** -/
theorem accumulate_of_admitted (hl : LaidOut s layout) {ds : List Descriptor}
    (h : Admitted s layout ds) : ∃ t, accumulate s ds = .ok t ∧ Counted s layout ds t := by
  induction ds using List.reverseRecOn with
  | nil => exact ⟨.empty, rfl, Tally.counts_empty⟩
  | append_singleton ds d ih =>
    obtain ⟨t, ht, hcounted⟩ := ih h.of_append
    obtain ⟨t', ht', hcounted'⟩ := creditDescriptor_of_admitted hl hcounted h
    refine ⟨t', ?_, hcounted'⟩
    rw [accumulate_append_cons ht, ht']
    rfl

/-- **The first descriptor refused decides.** -/
theorem accumulate_of_refused (hl : LaidOut s layout) {before after : List Descriptor}
    {d : Descriptor} {failure : Failure} (hbefore : Admitted s layout before)
    (h : Refused s layout before d failure) :
    accumulate s (before ++ d :: after) = .error failure := by
  obtain ⟨t, ht, hcounted⟩ := accumulate_of_admitted hl hbefore
  rw [accumulate_append_cons ht, creditDescriptor_of_refused hl hcounted h]
  rfl

theorem admitted_or_refused (s : σ) (layout : String → List Block) (ds : List Descriptor) :
    Admitted s layout ds ∨ ∃ before d after failure, ds = before ++ d :: after ∧
      Admitted s layout before ∧ Refused s layout before d failure := by
  induction ds using List.reverseRecOn with
  | nil => exact Or.inl admitted_nil
  | append_singleton ds d ih =>
    rcases ih with h | ⟨before, d', after, failure, rfl, hbefore, h⟩
    · rcases h.append_or_refused d with h' | ⟨failure, h'⟩
      · exact Or.inl h'
      · exact Or.inr ⟨ds, d, [], failure, rfl, h, h'⟩
    · exact Or.inr ⟨before, d', after ++ [d], failure, by simp, hbefore, h⟩

theorem exists_accumulate_eq_ok_iff (hl : LaidOut s layout) {ds : List Descriptor} :
    (∃ t, accumulate s ds = .ok t) ↔ Admitted s layout ds := by
  constructor
  · rintro ⟨t, ht⟩
    rcases admitted_or_refused s layout ds with h | ⟨before, d, after, failure, rfl, hbefore, h⟩
    · exact h
    · rw [accumulate_of_refused hl hbefore h] at ht
      cases ht
  · intro h
    obtain ⟨t, ht, -⟩ := accumulate_of_admitted hl h
    exact ⟨t, ht⟩

theorem counted_of_accumulate (hl : LaidOut s layout) {ds : List Descriptor} {t : Tally}
    (h : accumulate s ds = .ok t) : Counted s layout ds t := by
  obtain ⟨t', ht', hcounted⟩ :=
    accumulate_of_admitted hl ((exists_accumulate_eq_ok_iff hl).1 ⟨t, h⟩)
  cases h.symm.trans ht'
  exact hcounted

theorem accumulate_eq_error_iff (hl : LaidOut s layout) {ds : List Descriptor}
    {failure : Failure} :
    accumulate s ds = .error failure ↔ ∃ before d after, ds = before ++ d :: after ∧
      Admitted s layout before ∧ Refused s layout before d failure := by
  constructor
  · intro h
    rcases admitted_or_refused s layout ds with hds | ⟨before, d, after, failure', rfl, hb, hr⟩
    · obtain ⟨t, ht⟩ := (exists_accumulate_eq_ok_iff hl).2 hds
      rw [h] at ht
      cases ht
    · rw [accumulate_of_refused hl hb hr] at h
      cases h
      exact ⟨before, d, after, rfl, hb, hr⟩
  · rintro ⟨before, d, after, rfl, hb, hr⟩
    exact accumulate_of_refused hl hb hr

end

end Locality

end Apportion
