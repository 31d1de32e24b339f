/-
  The order of descriptors, blocks and hosts does not matter for which hosts are named.

  * `Block.Reordered`, `Catalog.Reordered`: blocks, and the hosts of each, listed in another
    order, in the files that are there or when they were put.
  * `Catalog.Reordered.alike`: catalogs that differ so tell the same sizes and bytes.
  * `preferredHosts_of_reordered`: the same hosts are named, with the same bytes down the list.
-/
import Apportion.Proofs.Locality.Alike
import Apportion.Proofs.Locality.Placement
import Apportion.Proofs.Tally.Leaders

namespace Apportion

/-- The same blocks in another order, each with its hosts in another order. -/
def Block.Reordered (bs bs' : List Block) : Prop :=
  ∃ mid, bs.Perm mid ∧ List.Forall₂
    (fun b b' => b.offset = b'.offset ∧ b.length = b'.length ∧ b.hosts.Perm b'.hosts) mid bs'

namespace Block

theorem Reordered.refl (bs : List Block) : Reordered bs bs :=
  ⟨bs, .refl bs, List.forall₂_same.2 fun _ _ => ⟨rfl, rfl, .refl _⟩⟩

theorem bytesFor_perm (host : String) (start stop : Nat) {bs bs' : List Block} (h : bs.Perm bs') :
    bytesFor host start stop bs = bytesFor host start stop bs' :=
  (h.map _).sum_eq

theorem Reordered.bytesFor_eq {bs bs' : List Block} (h : Reordered bs bs') (host : String)
    (start stop : Nat) : bytesFor host start stop bs = bytesFor host start stop bs' := by
  obtain ⟨mid, hp, hall⟩ := h
  rw [bytesFor_perm host start stop hp]
  clear hp
  induction hall with
  | nil => rfl
  | cons hb hall ih =>
    obtain ⟨hoffset, hlength, hhosts⟩ := hb
    simp only [bytesFor, List.map_cons, List.sum_cons] at ih ⊢
    rw [ih, hhosts.count_eq, positions, positions, hoffset, hlength]

end Block

namespace Catalog

theorem rel_cases {r : Object → Object → Prop} {o? o'? : Option Object}
    (h : Option.Rel r o? o'?) :
    (o? = none ∧ o'? = none) ∨ ∃ o o', o? = some o ∧ o'? = some o' ∧ r o o' := by
  cases h with
  | none => exact Or.inl ⟨rfl, rfl⟩
  | some h => exact Or.inr ⟨_, _, rfl, rfl, h⟩

/-- The same file, its blocks and their hosts in another order. -/
structure Object.Reordered (o o' : Object) : Prop where
  size : o.size = o'.size
  blocks : Block.Reordered o.blocks o'.blocks

/-- Catalogs that differ in the order of blocks and of hosts only, whether it is the order in
    which the files have them or the one in which they were put. -/
inductive Reordered : Catalog → Catalog → Prop where
  | files {c c' : Catalog} : c.objects.keys = c'.objects.keys →
      (∀ key, Option.Rel Object.Reordered (c.objects.get? key) (c'.objects.get? key)) →
      Reordered c c'
  | put {c c' : Catalog} (path : Path) (content : Octets) :
      Reordered c c' → Reordered (c.put path content) (c'.put path content)
  | putBlocks {c c' : Catalog} (path : Path) (size : UInt64) {bs bs' : List Block} :
      Reordered c c' → Block.Reordered bs bs' →
      Reordered (c.putBlocks path size bs) (c'.putBlocks path size bs')

theorem Reordered.refl (c : Catalog) : Reordered c c := by
  refine .files rfl fun key => ?_
  cases c.objects.get? key with
  | none => exact .none
  | some o => exact .some ⟨rfl, .refl _⟩

/-- Files of which the same size is told and the same bytes are held. -/
structure Object.Alike (o o' : Object) : Prop where
  size : o.size = o'.size
  bytes : ∀ host start stop,
    Block.bytesFor host start stop o.blocks = Block.bytesFor host start stop o'.blocks

theorem Object.Alike.refl (o : Object) : o.Alike o := ⟨rfl, fun _ _ _ => rfl⟩

theorem Object.Reordered.alike {o o' : Object} (h : o.Reordered o') : o.Alike o' :=
  ⟨h.size, h.blocks.bytesFor_eq⟩

theorem Object.alike_ofBlocks (size : UInt64) {bs bs' : List Block} (h : Block.Reordered bs bs') :
    (Object.ofBlocks size bs).Alike (.ofBlocks size bs') := by
  refine ⟨rfl, fun host start stop => ?_⟩
  calc Block.bytesFor host start stop (Object.ofBlocks size bs).blocks
      = Block.bytesFor host start stop bs :=
        Block.bytesFor_perm host start stop (List.mergeSort_perm _ _)
    _ = Block.bytesFor host start stop bs' := h.bytesFor_eq host start stop
    _ = Block.bytesFor host start stop (Object.ofBlocks size bs').blocks :=
        Block.bytesFor_perm host start stop (List.mergeSort_perm _ _).symm

/-- Catalogs with files that are alike under the same paths. -/
structure Alike (c c' : Catalog) : Prop where
  keys : c.objects.keys = c'.objects.keys
  objects : ∀ key, Option.Rel Object.Alike (c.objects.get? key) (c'.objects.get? key)

theorem Alike.put {c c' : Catalog} (h : c.Alike c') (key : List Path.Component) {o o' : Object}
    (ho : o.Alike o') : Alike ⟨c.objects.put key o⟩ ⟨c'.objects.put key o'⟩ := by
  refine ⟨?_, fun key' => ?_⟩
  · change (c.objects.put key o).keys = (c'.objects.put key o').keys
    rw [Keyed.keys_put, Keyed.keys_put, h.keys]
  · simp only [Keyed.get?_put]
    split
    · exact .some ho
    · exact h.objects key'

theorem Reordered.alike {c c' : Catalog} (h : Reordered c c') : c.Alike c' := by
  induction h with
  | files hkeys hobjects =>
    refine ⟨hkeys, fun key => ?_⟩
    rcases rel_cases (hobjects key) with ⟨hc, hc'⟩ | ⟨o, o', hc, hc', ho⟩
    · rw [hc, hc']
      exact .none
    · rw [hc, hc']
      exact .some ho.alike
  | put path content _ ih => exact ih.put _ (.refl _)
  | putBlocks path size _ hbs ih => exact ih.put _ (Object.alike_ofBlocks size hbs)

section
variable {c c' : Catalog} (h : c.Alike c') (path : Path)
include h

theorem Alike.object? : (c.object? path = none ∧ c'.object? path = none) ∨
    ∃ o o', c.object? path = some o ∧ c'.object? path = some o' ∧ o.Alike o' :=
  rel_cases (h.objects path.components)

theorem Alike.stat : c.stat path = c'.stat path := by
  have hdir : c.isDirectory path = c'.isDirectory path := by
    simp only [isDirectory, below, h.keys]
  rcases h.object? path with ⟨hc, hc'⟩ | ⟨o, o', hc, hc', ho⟩
  · simp only [Catalog.stat, hc, hc', hdir]
  · simp only [Catalog.stat, hc, hc', ho.size]

theorem Alike.told (start length : UInt64) :
    (c.blocks path start length).map (fun _ => ()) =
      (c'.blocks path start length).map fun _ => () := by
  rcases h.object? path with ⟨hc, hc'⟩ | ⟨o, o', hc, hc', -⟩
  · simp only [Catalog.blocks, hc, hc']
  · simp only [Catalog.blocks, hc, hc']
    rfl

theorem Alike.layout (source host : String) (start stop : Nat) :
    Block.bytesFor host start stop (c.layout source) =
      Block.bytesFor host start stop (c'.layout source) := by
  rcases h.object? ⟨source⟩ with ⟨hc, hc'⟩ | ⟨o, o', hc, hc', ho⟩
  · simp only [Catalog.layout, hc, hc']
  · simp only [Catalog.layout, hc, hc', ho.bytes]

end

end Catalog

namespace Locality

variable {c c' : Catalog} {ds ds' : List Descriptor}

/-! ## Alike catalogs -/

theorem alike_of_catalogs (h : c.Alike c') : Alike c c.layout c' c'.layout where
  stop source d := by
    unfold stopOf
    cases d.stop with
    | some stop => rfl
    | none => exact congrArg (Except.map Stat.size) (h.stat ⟨source⟩)
  bytes := h.layout
  told source := h.told ⟨source⟩

theorem exists_accumulate_of_alike (h : c.Alike c') (hds : ds.Perm ds') :
    (∃ t, accumulate c ds = .ok t) ↔ ∃ t, accumulate c' ds' = .ok t :=
  (alike_of_catalogs h).exists_accumulate c.laidOut c'.laidOut hds

/-- Tallies of alike catalogs tell the same, apart from the order of hosts. -/
theorem tally_of_alike (h : c.Alike c') (hds : ds.Perm ds') {t t' : Tally}
    (ht : accumulate c ds = .ok t) (ht' : accumulate c' ds' = .ok t') :
    t.total = t'.total ∧ ∀ host, t.get? host = t'.get? host :=
  (alike_of_catalogs h).tally c.laidOut c'.laidOut hds ht ht'

theorem preferredHosts_eq_ok_iff {settings : LocalitySettings} {hosts : List String} :
    preferredHosts settings c ds = .ok hosts ↔ ∃ t, accumulate c ds = .ok t ∧
      t.leaders settings.leastHosts.toNat settings.threshold = hosts :=
  Sequence.map_eq_ok_iff

/-! ## The hosts named -/

/-- **The hosts named do not depend on the order of anything.**  For descriptors in another
    order, and a catalog with its blocks and their hosts in another order, hosts are named iff
    they were; they are the same hosts, and the bytes held are the same down the list, so that
    only hosts with equally many bytes change places. -/
theorem preferredHosts_of_reordered (settings : LocalitySettings) (hc : Catalog.Reordered c c')
    (hds : ds.Perm ds') :
    ((∃ hosts, preferredHosts settings c ds = .ok hosts) ↔
      ∃ hosts, preferredHosts settings c' ds' = .ok hosts) ∧
    ∀ hosts hosts', preferredHosts settings c ds = .ok hosts →
      preferredHosts settings c' ds' = .ok hosts' →
      hosts.Perm hosts' ∧
      ∃ t t', accumulate c ds = .ok t ∧ accumulate c' ds' = .ok t' ∧
        (∀ host, t.get? host = t'.get? host) ∧ hosts.map t.get? = hosts'.map t'.get? := by
  have halike := hc.alike
  refine ⟨?_, fun hosts hosts' hhosts hhosts' => ?_⟩
  · simp only [preferredHosts_eq_ok_iff]
    have hiff := exists_accumulate_of_alike halike hds
    constructor
    · rintro ⟨-, t, ht, -⟩
      obtain ⟨t', ht'⟩ := hiff.1 ⟨t, ht⟩
      exact ⟨_, t', ht', rfl⟩
    · rintro ⟨-, t', ht', -⟩
      obtain ⟨t, ht⟩ := hiff.2 ⟨t', ht'⟩
      exact ⟨_, t, ht, rfl⟩
  · obtain ⟨t, ht, rfl⟩ := preferredHosts_eq_ok_iff.1 hhosts
    obtain ⟨t', ht', rfl⟩ := preferredHosts_eq_ok_iff.1 hhosts'
    obtain ⟨htotal, hget⟩ := tally_of_alike halike hds ht ht'
    obtain ⟨hperm, hbytes⟩ :=
      Tally.perm_leaders htotal hget settings.leastHosts.toNat settings.threshold
    exact ⟨hperm, t, t', ht, ht', hget, hbytes⟩

/-- Two hosts with equally many bytes, named in either order, and two ranges of their file. -/
theorem preferredHosts_of_reordered_tie :
    let block (hosts : List String) : Block := ⟨hosts, 0, 4⟩
    let c := Catalog.empty.putBlocks ⟨"f"⟩ 4 [block ["a", "b"]]
    let c' := Catalog.empty.putBlocks ⟨"f"⟩ 4 [block ["b", "a"]]
    let head : Descriptor := ⟨some "f", 0, some 1, .empty⟩
    let rest : Descriptor := ⟨some "f", 1, none, .empty⟩
    Catalog.Reordered c c' ∧ [head, rest].Perm [rest, head] ∧
      ∃ hosts hosts', preferredHosts {} c [head, rest] = .ok hosts ∧
        preferredHosts {} c' [rest, head] = .ok hosts' ∧ hosts.Perm hosts' := by
  intro block c c' head rest
  have hc : Catalog.Reordered c c' :=
    .putBlocks _ _ (.refl _) ⟨_, .refl _, .cons ⟨rfl, rfl, .swap "b" "a" []⟩ .nil⟩
  have hds : [head, rest].Perm [rest, head] := .swap rest head []
  obtain ⟨hiff, hsame⟩ := preferredHosts_of_reordered {} hc hds
  obtain ⟨t, ht⟩ : ∃ t, accumulate c [head, rest] = .ok t :=
    Sequence.exists_eq_ok_iff.2 (by decide +kernel)
  have hhosts : preferredHosts {} c [head, rest] = .ok _ :=
    preferredHosts_eq_ok_iff.2 ⟨t, ht, rfl⟩
  obtain ⟨hosts', hhosts'⟩ := hiff.1 ⟨_, hhosts⟩
  exact ⟨hc, hds, _, hosts', hhosts, hhosts', (hsame _ _ hhosts hhosts').1⟩

end Locality

end Apportion
