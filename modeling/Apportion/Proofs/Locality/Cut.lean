/-
  A range cut in two.

  * `Block.bytesFor_cut`: every host has the same bytes in both parts together.
  * `Block.eraseDups_hostsIn_cut`: hosts come up in the same order, because blocks are told in
    the order of their offsets.
  * `Placed`: what a store has to do for that; `Backend.placed` says that the backends do it.
  * `Cut`: two descriptors in place of one.
  * `accumulate_cut_iff`: accumulating does not notice.
-/
import Apportion.Proofs.Locality.Placement
import Apportion.Proofs.Locality.Tiled
import Apportion.Proofs.Store.Backend

namespace Apportion

namespace Block

section
variable {start mid stop : UInt64} (hstart : start ≤ mid) (hmid : mid ≤ stop)
include hstart hmid

/-! ## Blocks and the parts of a range -/

theorem card_positions_cut (b : Block) : (b.positions start.toNat stop.toNat).card =
    (b.positions start.toNat mid.toNat).card + (b.positions mid.toNat stop.toNat).card := by
  rw [UInt64.le_iff_toNat_le] at hstart hmid
  simp only [positions, Finset.Ico_inter_Ico, Nat.card_Ico]
  omega

/-- Every host has the same bytes in both parts together. -/
theorem bytesFor_cut (host : String) (bs : List Block) :
    bytesFor host start.toNat stop.toNat bs =
      bytesFor host start.toNat mid.toNat bs + bytesFor host mid.toNat stop.toNat bs := by
  induction bs with
  | nil => rfl
  | cons b bs ih =>
    simp only [bytesFor, List.map_cons, List.sum_cons] at ih ⊢
    rw [ih, card_positions_cut hstart hmid, Nat.mul_add]
    omega

/-- A block that meets a range meets one of its parts. -/
theorem zero_lt_overlap_cut_iff (b : Block) :
    0 < b.overlap start stop ↔ 0 < b.overlap start mid ∨ 0 < b.overlap mid stop := by
  rw [UInt64.le_iff_toNat_le] at hstart hmid
  simp only [zero_lt_overlap_iff]
  omega

end

/-- A block that meets the second part only lies behind the first one, or there is none. -/
theorem mid_le_of_overlap {start mid stop : UInt64} (hmid : mid ≤ stop) {b : Block}
    (h : 0 < b.overlap start stop) (hfirst : ¬0 < b.overlap start mid) :
    mid.toNat ≤ max b.offset.toNat start.toNat := by
  rw [UInt64.le_iff_toNat_le] at hmid
  rw [zero_lt_overlap_iff] at h hfirst
  omega

/-- **Hosts come up in the same order** in both parts, one after the other, if blocks are in the
    order of their offsets. -/
theorem eraseDups_hostsIn_cut {start mid stop : UInt64} (hstart : start ≤ mid) (hmid : mid ≤ stop)
    {bs : List Block} (hordered : bs.Pairwise fun b b' => b.offset ≤ b'.offset) :
    (hostsIn start stop bs).eraseDups =
      (hostsIn start mid bs ++ hostsIn mid stop bs).eraseDups := by
  induction bs with
  | nil => rfl
  | cons b bs ih =>
    obtain ⟨hb, hbs⟩ := List.pairwise_cons.1 hordered
    have ih := ih hbs
    rw [hostsIn_cons, hostsIn_cons, hostsIn_cons]
    by_cases hfirst : 0 < b.overlap start mid
    · -- what comes up in the second part has come up in the first one
      have hwhole : 0 < b.overlap start stop :=
        (zero_lt_overlap_cut_iff hstart hmid b).2 (Or.inl hfirst)
      have hagain : ∀ a ∈ (if 0 < b.overlap mid stop then b.hosts else []),
          a ∈ b.hosts ++ hostsIn start mid bs := by
        intro a ha
        split at ha
        · exact List.mem_append_left _ ha
        · cases ha
      rw [if_pos hwhole, if_pos hfirst, ← List.append_assoc,
        eraseDups_append_congr (eraseDups_append_of_subset hagain) rfl, List.append_assoc]
      exact eraseDups_append_congr rfl ih
    · by_cases hwhole : 0 < b.overlap start stop
      · -- neither this block nor one behind it meets the first part
        have hsecond : 0 < b.overlap mid stop :=
          ((zero_lt_overlap_cut_iff hstart hmid b).1 hwhole).resolve_left hfirst
        have hbehind : hostsIn start mid bs = [] := by
          refine hostsIn_of_behind fun b' hb' => ?_
          have hle := mid_le_of_overlap hmid hwhole hfirst
          have := UInt64.le_iff_toNat_le.1 (hb b' hb')
          omega
        rw [hbehind, List.nil_append] at ih
        rw [if_pos hwhole, if_neg hfirst, if_pos hsecond, hbehind, List.nil_append, List.nil_append]
        exact eraseDups_append_congr rfl ih
      · have hsecond : ¬0 < b.overlap mid stop := fun h =>
          hwhole ((zero_lt_overlap_cut_iff hstart hmid b).2 (Or.inr h))
        rw [if_neg hwhole, if_neg hfirst, if_neg hsecond]
        exact ih

end Block

namespace Locality

variable {σ : Type} [Store σ]

/-! ## Stores -/

/-- A store tells blocks as `layout` has them, in the order of their offsets, and whether it tells
    those of a source does not depend on the range. -/
structure Placed (s : σ) (layout : String → List Block) : Prop where
  laidOut : LaidOut s layout
  ordered : ∀ source, (layout source).Pairwise fun b b' => b.offset ≤ b'.offset
  told : ∀ source start length start' length',
    (∃ bs, Store.blocks s ⟨source⟩ start length = .ok bs) →
      ∃ bs, Store.blocks s ⟨source⟩ start' length' = .ok bs

end Locality

namespace Catalog

/-- Catalogs that come of keeping contents and placements; a file that is written through a handle
    is kept like any other. -/
inductive Filled : Catalog → Prop where
  | empty : Filled .empty
  | put {c : Catalog} (path : Path) (content : Octets) : Filled c → Filled (c.put path content)
  | putBlocks {c : Catalog} (path : Path) (size : UInt64) (bs : List Block) :
      Filled c → Filled (c.putBlocks path size bs)

theorem ordered_ofBlocks (size : UInt64) (bs : List Block) :
    (Object.ofBlocks size bs).blocks.Pairwise fun b b' => b.offset ≤ b'.offset := by
  refine (List.pairwise_mergeSort ?_ ?_ bs).imp of_decide_eq_true
  · intro a b c hab hbc
    exact decide_eq_true (UInt64.le_trans (of_decide_eq_true hab) (of_decide_eq_true hbc))
  · intro a b
    rw [Bool.or_eq_true, decide_eq_true_iff, decide_eq_true_iff]
    exact UInt64.le_total ..

/-- The blocks of every file are kept in order. -/
theorem Filled.ordered {c : Catalog} (h : c.Filled) {key : List Path.Component} {object : Object}
    (hobject : c.objects.get? key = some object) :
    object.blocks.Pairwise fun b b' => b.offset ≤ b'.offset := by
  induction h with
  | empty => cases hobject
  | put path content _ ih =>
    rw [Catalog.put, Keyed.get?_put] at hobject
    split at hobject
    · cases hobject
      exact .nil
    · exact ih hobject
  | putBlocks path size bs _ ih =>
    rw [Catalog.putBlocks, Keyed.get?_put] at hobject
    split at hobject
    · cases hobject
      exact ordered_ofBlocks size bs
    · exact ih hobject

theorem Filled.placed {c : Catalog} (h : c.Filled) : Locality.Placed c c.layout where
  laidOut := c.laidOut
  ordered source := by
    cases hobject : c.object? ⟨source⟩ with
    | none =>
      rw [layout, hobject]
      exact .nil
    | some object =>
      rw [layout_of_object hobject]
      exact h.ordered hobject
  told source start length start' length' := by
    rintro ⟨bs, hbs⟩
    change c.blocks ⟨source⟩ start length = .ok bs at hbs
    cases hobject : c.object? ⟨source⟩ with
    | none =>
      simp only [blocks, hobject] at hbs
      cases hbs
    | some object => exact ⟨_, by simp only [Store.blocks, blocks, hobject]; rfl⟩

end Catalog

namespace DiskStore

theorem placed {s : DiskStore} (hblock : 0 < s.blockSize) : Locality.Placed s s.layout where
  laidOut := laidOut hblock
  ordered source := by
    cases hstat : s.stat ⟨source⟩ with
    | error failure =>
      rw [layout_of_error hstat]
      exact .nil
    | ok stat =>
      rw [layout_of_stat hstat]
      exact (Block.pairwise_tiling (UInt64.lt_iff_toNat_lt.1 hblock) stat.size.toNat_lt).imp
        UInt64.le_of_lt
  told source start length start' length' := by
    rintro ⟨bs, hbs⟩
    obtain ⟨stat, hstat, -⟩ := Sequence.bind_eq_ok_iff.1
      (show s.blocks ⟨source⟩ start length = .ok bs from hbs)
    exact ⟨_, Sequence.bind_eq_ok_iff.2 ⟨stat, hstat, rfl⟩⟩

end DiskStore

namespace Backend

/-- What a backend can come to keep. -/
def Made : (b : Backend) → b.Content → Prop
  | memory, c => Catalog.Filled c
  | disk, s => ∃ settings d, s = DiskStore.on settings d

/-- The blocks of the file that a source names. -/
def layout : (b : Backend) → b.Content → String → List Block
  | memory, c => Catalog.layout c
  | disk, s => DiskStore.layout s

theorem placed : (b : Backend) → {s : b.Content} → b.Made s → Locality.Placed s (b.layout s)
  | memory, _, h => Catalog.Filled.placed h
  | disk, _, ⟨settings, d, h⟩ => h ▸ DiskStore.placed (DiskStore.zero_lt_blockSize_on settings d)

end Backend

namespace Locality

variable {σ : Type} [Store σ]

/-! ## Descriptors -/

/-- On `source`, the range of `d` falls into those of `head` and `tail`, which meet at `mid`. -/
structure Cut (s : σ) (d head tail : Descriptor) (source : String) (mid stop : UInt64) : Prop where
  source_eq : d.source = some source
  source_head : head.source = some source
  source_tail : tail.source = some source
  start_head : head.start = d.start
  start_tail : tail.start = mid
  stop_eq : stopOf s source d = .ok stop
  stop_head : stopOf s source head = .ok mid
  stop_tail : stopOf s source tail = .ok stop
  start_le : d.start ≤ mid
  le_stop : mid ≤ stop

section
variable {s : σ} {layout : String → List Block} {d head tail : Descriptor} {source : String}
  {mid stop : UInt64} (h : Cut s d head tail source mid stop)
include h

theorem Cut.rangeLength_eq : rangeLength s d = rangeLength s head + rangeLength s tail := by
  have hstart := UInt64.le_iff_toNat_le.1 h.start_le
  have hstop := UInt64.le_iff_toNat_le.1 h.le_stop
  rw [rangeLength_of_stop h.source_eq h.stop_eq, rangeLength_of_stop h.source_head h.stop_head,
    rangeLength_of_stop h.source_tail h.stop_tail, h.start_head, h.start_tail]
  omega

theorem Cut.rangeBytes_eq (host : String) : rangeBytes s layout host d =
    rangeBytes s layout host head + rangeBytes s layout host tail := by
  rw [rangeBytes_of_stop host h.source_eq h.stop_eq,
    rangeBytes_of_stop host h.source_head h.stop_head,
    rangeBytes_of_stop host h.source_tail h.stop_tail, h.start_head, h.start_tail]
  exact Block.bytesFor_cut h.start_le h.le_stop host _

theorem Cut.eraseDups_creditedHosts (hs : Placed s layout) :
    (creditedHosts s layout d).eraseDups =
      (creditedHosts s layout head ++ creditedHosts s layout tail).eraseDups := by
  rw [creditedHosts_of_stop h.source_eq h.stop_eq, creditedHosts_of_stop h.source_head h.stop_head,
    creditedHosts_of_stop h.source_tail h.stop_tail, h.start_head, h.start_tail]
  exact Block.eraseDups_hostsIn_cut h.start_le h.le_stop (hs.ordered source)

/-- A descriptor can be read iff both parts can. -/
theorem Cut.readable_iff (hs : Placed s layout) :
    (∃ stop, Readable s source d stop) ↔
      (∃ stop, Readable s source head stop) ∧ ∃ stop, Readable s source tail stop := by
  constructor
  · rintro ⟨stop', hstop', -, hplaced⟩
    cases hstop'.symm.trans h.stop_eq
    refine ⟨⟨mid, h.stop_head, h.start_head ▸ h.start_le, fun hlt => ?_⟩,
      ⟨stop, h.stop_tail, h.start_tail ▸ h.le_stop, fun hlt => ?_⟩⟩
    · rw [h.start_head] at hlt
      exact hs.told _ _ _ _ _ (hplaced (UInt64.lt_of_lt_of_le hlt h.le_stop))
    · rw [h.start_tail] at hlt
      exact hs.told _ _ _ _ _ (hplaced (UInt64.lt_of_le_of_lt h.start_le hlt))
  · rintro ⟨⟨mid', hmid', -, hhead⟩, ⟨stop', hstop', -, htail⟩⟩
    cases hmid'.symm.trans h.stop_head
    cases hstop'.symm.trans h.stop_tail
    refine ⟨stop, h.stop_eq, UInt64.le_trans h.start_le h.le_stop, fun hlt => ?_⟩
    -- one of the parts is not empty
    rcases UInt64.lt_or_eq_of_le h.start_le with hlt' | heq
    · exact hs.told _ _ _ _ _ (hhead (h.start_head ▸ hlt'))
    · exact hs.told _ _ _ _ _ (htail (h.start_tail ▸ heq ▸ hlt))

variable (before after : List Descriptor)

theorem Cut.lengthSum_eq : lengthSum s (before ++ d :: after) =
    lengthSum s (before ++ head :: tail :: after) := by
  simp only [lengthSum, List.map_append, List.map_cons, List.sum_append, List.sum_cons,
    h.rangeLength_eq]
  omega

theorem Cut.byteSum_eq (host : String) : byteSum s layout host (before ++ d :: after) =
    byteSum s layout host (before ++ head :: tail :: after) := by
  simp only [byteSum, List.map_append, List.map_cons, List.sum_append, List.sum_cons,
    h.rangeBytes_eq]
  omega

theorem Cut.admitted_iff (hs : Placed s layout) : Admitted s layout (before ++ d :: after) ↔
    Admitted s layout (before ++ head :: tail :: after) := by
  have hread : (∀ d' ∈ before ++ d :: after, ∀ source, d'.source = some source →
        ∃ stop, Readable s source d' stop) ↔
      ∀ d' ∈ before ++ head :: tail :: after, ∀ source, d'.source = some source →
        ∃ stop, Readable s source d' stop := by
    simp only [List.forall_mem_append, List.forall_mem_cons, h.source_eq, h.source_head,
      h.source_tail, Option.some.injEq, forall_eq', h.readable_iff hs, and_assoc]
  have hlength := h.lengthSum_eq before after
  have hbytes : ∀ host, byteSum s layout host (before ++ d :: after) =
      byteSum s layout host (before ++ head :: tail :: after) := h.byteSum_eq before after
  constructor
  · intro ha
    exact ⟨hread.1 ha.readable, hlength ▸ ha.total, fun host => hbytes host ▸ ha.shares host⟩
  · intro ha
    exact ⟨hread.2 ha.readable, hlength ▸ ha.total, fun host => hbytes host ▸ ha.shares host⟩

theorem Cut.eraseDups_flatMap (hs : Placed s layout) :
    ((before ++ d :: after).flatMap (creditedHosts s layout)).eraseDups =
      ((before ++ head :: tail :: after).flatMap (creditedHosts s layout)).eraseDups := by
  simp only [List.flatMap_append, List.flatMap_cons]
  refine eraseDups_append_congr rfl ?_
  rw [← List.append_assoc]
  exact eraseDups_append_congr (h.eraseDups_creditedHosts hs) rfl

theorem Cut.accumulate_iff (hs : Placed s layout) (t : Tally) :
    accumulate s (before ++ d :: after) = .ok t ↔
      accumulate s (before ++ head :: tail :: after) = .ok t := by
  have hl := hs.laidOut
  have hexists : (∃ t, accumulate s (before ++ d :: after) = .ok t) ↔
      ∃ t, accumulate s (before ++ head :: tail :: after) = .ok t := by
    rw [exists_accumulate_eq_ok_iff hl, exists_accumulate_eq_ok_iff hl]
    exact h.admitted_iff before after hs
  have hsame : ∀ {t t'}, accumulate s (before ++ d :: after) = .ok t →
      accumulate s (before ++ head :: tail :: after) = .ok t' → t = t' := fun ht ht' =>
    tally_eq hl hl ht ht' (h.lengthSum_eq before after) (h.byteSum_eq before after)
      (h.eraseDups_flatMap before after hs)
  constructor
  · intro ht
    obtain ⟨t', ht'⟩ := hexists.1 ⟨t, ht⟩
    rw [ht', hsame ht ht']
  · intro ht'
    obtain ⟨t, ht⟩ := hexists.2 ⟨_, ht'⟩
    rw [ht, hsame ht ht']

end

/-- **Cutting a range is not noticed.**  Over everything that either backend can come to keep, and
    with any descriptors in front and behind: with two descriptors in place of one, of which the
    ranges follow each other in its range, accumulating leads to the same tally, order included,
    whenever it leads to one, and the same hosts are preferred. -/
theorem accumulate_cut_iff (b : Backend) (s : b.Content) (hs : b.Made s)
    (before after : List Descriptor) (d head tail : Descriptor) (source : String)
    (mid stop : UInt64) (h : Cut s d head tail source mid stop) :
    (∀ t, accumulate s (before ++ d :: after) = .ok t ↔
      accumulate s (before ++ head :: tail :: after) = .ok t) ∧
    ∀ settings hosts, preferredHosts settings s (before ++ d :: after) = .ok hosts ↔
      preferredHosts settings s (before ++ head :: tail :: after) = .ok hosts := by
  have hiff := h.accumulate_iff before after (b.placed hs)
  refine ⟨hiff, fun settings hosts => ?_⟩
  simp only [preferredHosts, Sequence.map_eq_ok_iff, hiff]

/-- An open range over blocks that overlap and were put in the order of their ends, cut where both
    hold bytes. -/
theorem accumulate_cut_iff_overlapping :
    let c := Catalog.empty.putBlocks ⟨"f"⟩ 10 [⟨["b", "c"], 4, 6⟩, ⟨["a", "b"], 0, 6⟩]
    let d : Descriptor := ⟨some "f", 1, none, .empty⟩
    let head : Descriptor := ⟨some "f", 1, some 5, .empty⟩
    let tail : Descriptor := ⟨some "f", 5, none, .empty⟩
    Backend.memory.Made c ∧ Cut c d head tail "f" 5 10 ∧
      ∃ t, accumulate c [d] = .ok t ∧ accumulate c [head, tail] = .ok t := by
  intro c d head tail
  have hmade : Backend.memory.Made c := .putBlocks _ _ _ .empty
  have hcut : Cut c d head tail "f" 5 10 :=
    ⟨rfl, rfl, rfl, rfl, rfl, rfl, rfl, rfl, by decide, by decide⟩
  have hobject : Catalog.Object.ofBlocks 10 [⟨["b", "c"], 4, 6⟩, ⟨["a", "b"], 0, 6⟩] =
      ⟨[], 10, [⟨["a", "b"], 0, 6⟩, ⟨["b", "c"], 4, 6⟩]⟩ := by
    simp [Catalog.Object.ofBlocks, List.mergeSort]
  obtain ⟨t, ht⟩ : ∃ t, accumulate c [d] = .ok t := by
    rw [Sequence.exists_eq_ok_iff]
    dsimp only [c, Catalog.putBlocks]
    rw [hobject]
    decide +kernel
  obtain ⟨hiff, -⟩ := accumulate_cut_iff .memory c hmade [] [] d head tail "f" 5 10 hcut
  exact ⟨hmade, hcut, t, ht, (hiff t).1 ht⟩

end Locality

end Apportion
