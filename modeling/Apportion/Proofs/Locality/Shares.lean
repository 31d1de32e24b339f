/-
  No host holds more than all there is, if no byte is placed with it twice.

  * `Block.PlacedOnce`: blocks with no byte in common, none of which lists a host twice.
  * `Block.PlacedOnce.bytesFor_le`: such blocks hold no more bytes of a range for a host than the
    range has, and `byteSum_le_lengthSum` adds that up over descriptors.
  * `shares_within_total`: the share of a host is at most the total, and crediting a host never
    exceeds the largest quantity; only counting a range does.
-/
import Apportion.Proofs.Locality.Placement
import Mathlib.Algebra.Order.BigOperators.Group.List
import Mathlib.Algebra.Order.Group.Nat

namespace Apportion

namespace Block

/-- The bytes of a block, by their positions in the file. -/
def range (b : Block) : Finset Nat := Finset.Ico b.offset.toNat b.stop.toNat

/-- No byte is in two of the blocks, and none of them lists a host twice. -/
structure PlacedOnce (bs : List Block) : Prop where
  apart : bs.Pairwise fun b b' => Disjoint b.range b'.range
  hosts : ∀ b ∈ bs, b.hosts.Nodup

variable {b : Block} {bs bs' : List Block}

theorem positions_eq (b : Block) (start stop : Nat) :
    b.positions start stop = Finset.Ico start stop ∩ b.range := by
  rw [positions, range, toNat_stop]

theorem PlacedOnce.nil : PlacedOnce [] := ⟨.nil, by simp⟩

theorem PlacedOnce.of_cons (h : PlacedOnce (b :: bs)) : PlacedOnce bs :=
  ⟨(List.pairwise_cons.1 h.apart).2, fun b' hb' => h.hosts b' (List.mem_cons_of_mem _ hb')⟩

theorem PlacedOnce.perm (h : PlacedOnce bs) (hbs : bs.Perm bs') : PlacedOnce bs' :=
  ⟨h.apart.perm hbs fun hapart => hapart.symm, fun b hb => h.hosts b (hbs.mem_iff.2 hb)⟩

/-- The bytes of a range that are in one of the blocks. -/
def covered (start stop : Nat) (bs : List Block) : Finset Nat :=
  (Finset.Ico start stop).filter fun n => ∃ b ∈ bs, n ∈ b.range

theorem covered_cons (start stop : Nat) (b : Block) (bs : List Block) :
    covered start stop (b :: bs) = b.positions start stop ∪ covered start stop bs := by
  ext n
  simp only [covered, positions_eq, Finset.mem_union, Finset.mem_inter, Finset.mem_filter,
    List.exists_mem_cons_iff, and_or_left]

/-- No byte of the first block is in another one. -/
theorem PlacedOnce.disjoint_covered (h : PlacedOnce (b :: bs)) (start stop : Nat) :
    Disjoint (b.positions start stop) (covered start stop bs) := by
  rw [Finset.disjoint_left]
  intro n hn hcovered
  rw [positions_eq, Finset.mem_inter] at hn
  obtain ⟨b', hb', hn'⟩ := (Finset.mem_filter.1 hcovered).2
  exact Finset.disjoint_left.1 ((List.pairwise_cons.1 h.apart).1 b' hb') hn.2 hn'

theorem PlacedOnce.bytesFor_le_card (h : PlacedOnce bs) (host : String) (start stop : Nat) :
    bytesFor host start stop bs ≤ (covered start stop bs).card := by
  induction bs with
  | nil => simp [bytesFor]
  | cons b bs ih =>
    have hcount : b.hosts.count host ≤ 1 :=
      List.nodup_iff_count_le_one.1 (h.hosts b List.mem_cons_self) host
    rw [covered_cons, Finset.card_union_of_disjoint (h.disjoint_covered start stop)]
    calc bytesFor host start stop (b :: bs)
        = b.hosts.count host * (b.positions start stop).card + bytesFor host start stop bs := rfl
      _ ≤ 1 * (b.positions start stop).card + (covered start stop bs).card :=
        Nat.add_le_add (Nat.mul_le_mul_right _ hcount) (ih h.of_cons)
      _ = _ := by rw [Nat.one_mul]

/-- **A host holds no more bytes of a range than the range has.** -/
theorem PlacedOnce.bytesFor_le (h : PlacedOnce bs) (host : String) (start stop : Nat) :
    bytesFor host start stop bs ≤ stop - start :=
  calc bytesFor host start stop bs
      ≤ (covered start stop bs).card := h.bytesFor_le_card host start stop
    _ ≤ (Finset.Ico start stop).card := Finset.card_filter_le ..
    _ = stop - start := Nat.card_Ico ..

end Block

namespace Catalog

variable {c : Catalog} {source : String} {failure : Failure}

/-- Every file is placed once. -/
def PlacedOnce (c : Catalog) : Prop :=
  ∀ path object, c.object? path = some object → Block.PlacedOnce object.blocks

theorem placedOnce_empty : empty.PlacedOnce := fun _ _ h => nomatch h

/-- Files are placed once if their blocks were when they were put. -/
theorem PlacedOnce.putBlocks (h : c.PlacedOnce) (path : Path) (size : UInt64) {bs : List Block}
    (hbs : Block.PlacedOnce bs) : (c.putBlocks path size bs).PlacedOnce := by
  intro path' object hobject
  rw [object?, Catalog.putBlocks, Keyed.get?_put] at hobject
  split at hobject
  · cases hobject
    exact hbs.perm (List.mergeSort_perm _ _).symm
  · exact h path' object hobject

theorem PlacedOnce.layout (h : c.PlacedOnce) (source : String) :
    Block.PlacedOnce (c.layout source) := by
  unfold Catalog.layout
  split
  · rename_i object hobject
    exact h _ object hobject
  · exact .nil

/-- Nothing but a missing file keeps a catalog from telling where a range ends. -/
theorem stopOf_eq_error {d : Descriptor} (h : Locality.stopOf c source d = .error failure) :
    failure = .notFound ⟨source⟩ := by
  unfold Locality.stopOf at h
  split at h
  · cases h
  · change (c.stat ⟨source⟩).map Stat.size = .error failure at h
    unfold stat at h
    split at h
    · cases h
    · split at h <;> cases h
      rfl

theorem blocks_eq_error {start length : UInt64}
    (h : Store.blocks c ⟨source⟩ start length = .error failure) :
    failure = .notFound ⟨source⟩ := by
  change c.blocks ⟨source⟩ start length = .error failure at h
  unfold blocks at h
  split at h <;> cases h
  rfl

end Catalog

namespace Locality

open Quantity

section
variable {σ : Type} [Store σ] {s : σ} {layout : String → List Block}
  (h : ∀ source, Block.PlacedOnce (layout source))
include h

theorem rangeBytes_le_rangeLength (host : String) (d : Descriptor) :
    rangeBytes s layout host d ≤ rangeLength s d := by
  cases hsource : d.source with
  | none => rw [rangeBytes_of_none host hsource]; exact Nat.zero_le _
  | some source =>
    cases hstop : stopOf s source d with
    | error failure => simp [rangeBytes, hsource, hstop]
    | ok stop =>
      rw [rangeBytes_of_stop host hsource hstop, rangeLength_of_stop hsource hstop]
      exact (h source).bytesFor_le host _ _

theorem byteSum_le_lengthSum (host : String) (ds : List Descriptor) :
    byteSum s layout host ds ≤ lengthSum s ds :=
  List.sum_le_sum fun d _ => rangeBytes_le_rangeLength h host d

/-- Hosts can be credited with the bytes of a range as soon as the range itself was counted. -/
theorem exists_credited (hl : LaidOut s layout) {ds : List Descriptor} {source : String}
    {start stop : UInt64} {t t₁ : Tally} {bs : List Block} (ht : accumulate s ds = .ok t)
    (hlt : start < stop) (ht₁ : t.addRange (stop - start) = some t₁)
    (hbs : Store.blocks s ⟨source⟩ start (stop - start) = .ok bs) :
    ∃ t₂, bs.foldlM (creditBlock start stop) t₁ = .ok t₂ := by
  have hcounted : Counted s layout ds t := counted_of_accumulate hl ht
  have hfit : lengthSum s ds + (stop - start).toNat ≤ largest := by
    by_contra hbig
    rw [hcounted.addRange_eq_none (Nat.lt_of_not_le hbig)] at ht₁
    cases ht₁
  obtain ⟨t₁', ht₁', hcounts⟩ := hcounted.addRange hfit
  cases ht₁.symm.trans ht₁'
  obtain ⟨t₂, ht₂, -⟩ := hcounts.addAll (Block.ne_zero_of_mem_flatMap_credits bs) fun host => by
    have hbefore := byteSum_le_lengthSum (s := s) h host ds
    have hrange := (h source).bytesFor_le host start.toNat stop.toNat
    have hsub := UInt64.toNat_sub_of_le stop start (UInt64.le_of_lt hlt)
    rw [credited_of_blocks hl hlt hbs]
    omega
  exact ⟨t₂, by rw [foldlM_creditBlock, ht₂]; rfl⟩

end

/-- **No share exceeds the total**, over every catalog whose files are placed once.  Each host in
    the tally holds at least one byte and at most as many as all ranges have together.  Accumulating
    exceeds the largest quantity iff the lengths of the ranges up to some descriptor do, and then
    there: once a range was counted, the hosts of its blocks are credited. -/
theorem shares_within_total {c : Catalog} (hc : c.PlacedOnce) (ds : List Descriptor) :
    (∀ t, accumulate c ds = .ok t → ∀ host bytes, t.get? host = some bytes →
      1 ≤ bytes ∧ bytes ≤ t.total) ∧
    (accumulate c ds = .error .sumOverflow ↔ ∃ before d after source stop,
      ds = before ++ d :: after ∧ (∃ t, accumulate c before = .ok t) ∧ d.source = some source ∧
        stopOf c source d = .ok stop ∧ d.start ≤ stop ∧
        largest < lengthSum c (before ++ [d])) ∧
    ∀ before source start stop t t₁ bs, before <+: ds → accumulate c before = .ok t →
      start < stop → t.addRange (stop - start) = some t₁ →
      Store.blocks c ⟨source⟩ start (stop - start) = .ok bs →
      ∃ t₂, bs.foldlM (creditBlock start stop) t₁ = .ok t₂ := by
  refine ⟨fun t ht host bytes hbytes => ?_, ⟨fun h => ?_, ?_⟩, ?_⟩
  · have hcounted := counted_of_accumulate c.laidOut ht
    have hshare := hcounted.toNat_eq hbytes
    have hne : byteSum c c.layout host ds ≠ 0 := by
      intro hzero
      have hget := hcounted.get?_eq host
      rw [hbytes, if_pos hzero] at hget
      cases hget
    have hle := byteSum_le_lengthSum (s := c) hc.layout host ds
    rw [UInt64.le_iff_toNat_le, UInt64.le_iff_toNat_le, hshare, hcounted.total_eq]
    exact ⟨Nat.one_le_iff_ne_zero.2 hne, hle⟩
  · obtain ⟨before, d, after, rfl, hbefore, hrefused⟩ := (accumulate_eq_error_iff c.laidOut).1 h
    cases hrefused with
    | noEnd _ hstop => cases Catalog.stopOf_eq_error hstop
    | total hsource hstop hle hbig =>
      exact ⟨before, d, after, _, _, rfl, (exists_accumulate_eq_ok_iff c.laidOut).2 hbefore,
        hsource, hstop, hle, hbig⟩
    | noBlocks _ _ _ _ hblocks => cases Catalog.blocks_eq_error hblocks
    | @share _ _ _ host _ _ _ htotal _ hbig =>
      have hle := byteSum_le_lengthSum (s := c) hc.layout host (before ++ [d])
      omega
  · rintro ⟨before, d, after, source, stop, rfl, hbefore, hsource, hstop, hle, hbig⟩
    exact accumulate_of_refused c.laidOut ((exists_accumulate_eq_ok_iff c.laidOut).1 hbefore)
      (.total hsource hstop hle hbig)
  · intro before source start stop t t₁ bs _ ht hlt ht₁ hbs
    exact exists_credited hc.layout c.laidOut ht hlt ht₁ hbs

/-- Two blocks and an empty one in the first of them, for ranges that overlap, come twice and reach
    behind the last block.  One more range, as long as the largest quantity, is too much. -/
theorem shares_within_total_overlapping :
    let bs : List Block := [⟨["a", "b"], 4, 6⟩, ⟨["b"], 0, 4⟩, ⟨["b"], 2, 0⟩]
    let c := Catalog.empty.putBlocks ⟨"f"⟩ 10 bs
    let ds : List Descriptor := [⟨some "f", 2, some 12, .empty⟩, ⟨some "f", 0, none, .empty⟩,
      ⟨some "f", 2, some 12, .empty⟩]
    let long : Descriptor := ⟨some "f", 0, some (Quantity.clamp largest), .empty⟩
    c.PlacedOnce ∧
      (∃ t, accumulate c ds = .ok t ∧ t.total = 30 ∧ t.get? "b" = some 26 ∧
        (1 : UInt64) ≤ 26 ∧ 26 ≤ t.total) ∧
      accumulate c (ds ++ [long]) = .error .sumOverflow := by
  intro bs c ds long
  have hbs : Block.PlacedOnce bs := ⟨by decide +kernel, by decide⟩
  have hc : c.PlacedOnce := Catalog.placedOnce_empty.putBlocks ⟨"f"⟩ 10 hbs
  have hobject : Catalog.Object.ofBlocks 10 bs =
      ⟨[], 10, [⟨["b"], 0, 4⟩, ⟨["b"], 2, 0⟩, ⟨["a", "b"], 4, 6⟩]⟩ := by
    simp [bs, Catalog.Object.ofBlocks, List.mergeSort]
  have hcounted : (accumulate c ds).toOption.map (fun t => (t.total, t.get? "b")) =
      some (30, some 26) := by
    dsimp only [c, Catalog.putBlocks]
    rw [hobject]
    decide +kernel
  obtain ⟨t, ht, htold⟩ := Option.map_eq_some_iff.1 hcounted
  obtain ⟨htotal, hb⟩ := Prod.mk.inj htold
  rw [Sequence.toOption_eq_some_iff] at ht
  refine ⟨hc, ⟨t, ht, htotal, hb, (shares_within_total hc ds).1 t ht "b" 26 hb⟩, ?_⟩
  have hbig : largest < lengthSum c (ds ++ [long]) := by decide +kernel
  exact (shares_within_total hc (ds ++ [long])).2.1.2
    ⟨ds, long, [], "f", _, rfl, ⟨t, ht⟩, rfl, rfl, by decide, hbig⟩

end Locality

end Apportion
