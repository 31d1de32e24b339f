/-
  Bindings with an index: entries in the order in which their keys were first bound, and beside
  them the slot in which the entry of a key stands.

  * `slot?` looks a key up in the index; `push` adds an entry for a key that has none, `set`
    changes the value in a slot, and `put` does the one or the other.
  * `toKeyed`: the bindings alone; `get?_toKeyed`, `toKeyed_put`: what a lookup and a change
    are there.
  * `eq_of_toKeyed_eq`: the entries leave no choice for the index.
-/
import Apportion.Keyed
import Std.Data.ExtTreeMap

namespace Apportion

open Std (ExtTreeMap TransOrd LawfulEqOrd)

/-- Entries in a row, and an index that tells the slot of each key. -/
structure Indexed (κ ν : Type) [Ord κ] [TransOrd κ] where
  index : ExtTreeMap κ Nat
  entries : Array (κ × ν)
  /-- The index leads a key to a slot exactly if the entry there is one of this key. -/
  agree : ∀ (k : κ) (slot : Nat), index[k]? = some slot ↔ entries[slot]?.map Prod.fst = some k

namespace Indexed

variable {κ ν : Type} [Ord κ] [TransOrd κ]

/-- No entries at all. -/
def empty : Indexed κ ν := ⟨∅, #[], fun _ _ => by simp⟩

/-! ## Slots -/

theorem lt_size {m : Indexed κ ν} {k : κ} {slot : Nat} (h : m.index[k]? = some slot) :
    slot < m.entries.size := by
  obtain ⟨e, he, -⟩ := Option.map_eq_some_iff.1 ((m.agree k slot).1 h)
  exact (Array.getElem?_eq_some_iff.1 he).1

/-- The slot of a key. -/
def slot? (m : Indexed κ ν) (k : κ) : Option (Fin m.entries.size) :=
  m.index[k]?.pmap Fin.mk fun _ => lt_size

theorem slot?_eq_some_iff {m : Indexed κ ν} {k : κ} {slot : Fin m.entries.size} :
    m.slot? k = some slot ↔ m.entries[slot].1 = k := by
  have hagree := m.agree k slot
  rw [Array.getElem?_eq_getElem slot.2, Option.map_some, Option.some.injEq] at hagree
  rw [Fin.getElem_fin, ← hagree, slot?, Option.pmap_eq_some_iff]
  constructor
  · rintro ⟨i, hi, hindex, rfl⟩
    exact hindex
  · exact fun h => ⟨slot, slot.2, h, rfl⟩

/-- No two slots have entries of one key. -/
theorem eq_of_key_eq {m : Indexed κ ν} {i j : Fin m.entries.size}
    (h : m.entries[i].1 = m.entries[j].1) : i = j :=
  Option.some.inj ((slot?_eq_some_iff.2 h).symm.trans (slot?_eq_some_iff.2 rfl))

theorem slot?_eq_none_iff {m : Indexed κ ν} {k : κ} : m.slot? k = none ↔ m.index[k]? = none := by
  rw [slot?, Option.pmap_eq_none_iff]

/-! ## Changes -/

/-- Adds an entry for a key that has none, in a slot of its own. -/
def push [LawfulEqOrd κ] (m : Indexed κ ν) (k : κ) (v : ν) (h : m.slot? k = none) :
    Indexed κ ν where
  index := m.index.insert k m.entries.size
  entries := m.entries.push (k, v)
  agree := by
    intro j i
    have hnone := slot?_eq_none_iff.1 h
    rw [ExtTreeMap.getElem?_insert, Array.getElem?_push]
    by_cases hj : k = j
    · subst hj
      have hfree := m.agree k i
      rw [hnone] at hfree
      by_cases hi : i = m.entries.size
      · simp [hi]
      · simpa [hi, Ne.symm hi] using hfree
    · by_cases hi : i = m.entries.size
      · have hout : m.index[j]? ≠ some i := fun h => Nat.ne_of_lt (lt_size h) hi
        simpa [hj, hi] using hout
      · simpa [hj, hi] using m.agree j i

/-- Changes the value in a slot. -/
def set (m : Indexed κ ν) (slot : Fin m.entries.size) (v : ν) : Indexed κ ν where
  index := m.index
  entries := m.entries.set slot (m.entries[slot].1, v)
  agree := by
    intro k i
    rw [m.agree, Array.getElem?_set]
    split
    · rename_i h
      simp [← h]
    · rfl

/-- Binds a key: in its slot, or in a new one if it has none. -/
def put [LawfulEqOrd κ] (m : Indexed κ ν) (k : κ) (v : ν) : Indexed κ ν :=
  match h : m.slot? k with
  | some slot => m.set slot v
  | none => m.push k v h

theorem put_of_slot?_eq_some [LawfulEqOrd κ] {m : Indexed κ ν} {k : κ}
    {slot : Fin m.entries.size} (h : m.slot? k = some slot) (v : ν) :
    m.put k v = m.set slot v := by
  unfold put
  split
  · rename_i slot' h'
    cases h.symm.trans h'
    rfl
  · rename_i h'
    cases h.symm.trans h'

theorem put_of_slot?_eq_none [LawfulEqOrd κ] {m : Indexed κ ν} {k : κ} (h : m.slot? k = none)
    (v : ν) : m.put k v = m.push k v h := by
  unfold put
  split
  · rename_i h'
    cases h.symm.trans h'
  · rfl

/-! ## Without the index -/

/-- The bindings, without the index. -/
def toKeyed (m : Indexed κ ν) : Keyed κ ν where
  entries := m.entries.toList
  distinct := by
    refine List.pairwise_iff_getElem.2 fun i j hi hj hlt heq => ?_
    rw [List.length_map, Array.length_toList] at hi hj
    simp only [List.getElem_map, Array.getElem_toList] at heq
    have hslots : (⟨i, hi⟩ : Fin m.entries.size) = ⟨j, hj⟩ := eq_of_key_eq heq
    exact Nat.ne_of_lt hlt (Fin.mk.inj hslots)

/-- The entries leave no choice for the index. -/
theorem eq_of_toKeyed_eq [LawfulEqOrd κ] {m m' : Indexed κ ν} (h : m.toKeyed = m'.toKeyed) :
    m = m' := by
  have hentries : m.entries = m'.entries := Array.toList_inj.1 (congrArg Keyed.entries h)
  have hindex : m.index = m'.index := by
    refine ExtTreeMap.ext_getElem? fun k => Option.ext fun slot => ?_
    rw [m.agree, m'.agree, hentries]
  cases m
  cases m'
  cases hentries
  cases hindex
  rfl

theorem notMem_keys {m : Indexed κ ν} {k : κ} (h : m.slot? k = none) : k ∉ m.toKeyed.keys := by
  intro hmem
  obtain ⟨e, he, rfl⟩ := List.mem_map.1 hmem
  obtain ⟨i, hi, rfl⟩ := List.mem_iff_getElem.1 he
  have hslot : m.slot? m.entries[i].1 = some ⟨i, hi⟩ := slot?_eq_some_iff.2 rfl
  cases h.symm.trans hslot

section
variable [DecidableEq κ]

theorem get?_toKeyed (m : Indexed κ ν) (k : κ) :
    m.toKeyed.get? k = (m.slot? k).map fun slot => m.entries[slot].2 := by
  cases hslot : m.slot? k with
  | none => exact Keyed.get?_eq_none_iff.2 (notMem_keys hslot)
  | some slot =>
    obtain rfl := slot?_eq_some_iff.1 hslot
    exact Keyed.mem_entries_iff.1 (Array.getElem_mem_toList slot.2)

theorem toKeyed_push [LawfulEqOrd κ] {m : Indexed κ ν} {k : κ} (h : m.slot? k = none) (v : ν) :
    (m.push k v h).toKeyed = m.toKeyed.put k v := by
  refine Keyed.eq_of_entries_eq ?_
  calc (m.push k v h).entries.toList
      = m.entries.toList ++ [(k, v)] := Array.toList_push
    _ = Keyed.bind k v m.entries.toList := (Keyed.bind_of_notMem (notMem_keys h) v).symm

theorem toKeyed_set {m : Indexed κ ν} {k : κ} {slot : Fin m.entries.size}
    (h : m.slot? k = some slot) (v : ν) : (m.set slot v).toKeyed = m.toKeyed.put k v := by
  obtain rfl := slot?_eq_some_iff.1 h
  have hfront : m.entries[slot].1 ∉ (m.entries.toList.take slot).map Prod.fst := by
    intro hmem
    obtain ⟨e, he, heq⟩ := List.mem_map.1 hmem
    obtain ⟨i, hi, rfl⟩ := List.mem_take_iff_getElem.1 he
    obtain ⟨hlt, hsize⟩ := Nat.lt_min.1 hi
    have hslots : (⟨i, hsize⟩ : Fin m.entries.size) = slot := eq_of_key_eq heq
    exact Nat.ne_of_lt hlt (congrArg Fin.val hslots)
  have hlength : slot.1 < m.entries.toList.length := slot.2
  refine Keyed.eq_of_entries_eq ?_
  calc (m.set slot v).entries.toList
      = m.entries.toList.set slot (m.entries[slot].1, v) := Array.toList_set _ _ _ slot.2
    _ = m.entries.toList.take slot ++ (m.entries[slot].1, v) ::
          m.entries.toList.drop (slot + 1) := by
        rw [List.set_eq_take_append_cons_drop, if_pos hlength]
    _ = Keyed.bind m.entries[slot].1 v (m.entries.toList.take slot ++
          m.entries[slot] :: m.entries.toList.drop (slot + 1)) :=
        (Keyed.bind_append_cons hfront ..).symm
    _ = Keyed.bind m.entries[slot].1 v m.entries.toList := by
        rw [Fin.getElem_fin, ← Array.getElem_toList, List.getElem_cons_drop,
          List.take_append_drop]

theorem toKeyed_put [LawfulEqOrd κ] (m : Indexed κ ν) (k : κ) (v : ν) :
    (m.put k v).toKeyed = m.toKeyed.put k v := by
  cases h : m.slot? k with
  | some slot => rw [put_of_slot?_eq_some h, toKeyed_set h]
  | none => rw [put_of_slot?_eq_none h, toKeyed_push h]

end

end Indexed

end Apportion
