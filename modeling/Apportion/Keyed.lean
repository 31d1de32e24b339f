/-
  Bindings of keys to values, each key bound once, in the order in which the
  keys were first bound.

  * `get?` looks a key up, `put` binds it: in place if it was bound before,
    after all others if it was not.
  * `get?_put`, `keys_put`: what `put` does to the lookup and to the order.
  * `get?_erase`: a key that was forgotten is not bound, all others are as before.
  * `mem_entries_iff`: the bindings listed are the ones looked up.
-/

namespace Apportion

/-- Bindings with distinct keys, in the order of their first binding. -/
structure Keyed (κ ν : Type) where
  entries : List (κ × ν)
  /-- No key is bound twice. -/
  distinct : (entries.map Prod.fst).Nodup

namespace Keyed

variable {κ ν : Type}

/-- The keys, in the order in which they were first bound. -/
def keys (m : Keyed κ ν) : List κ := m.entries.map Prod.fst

/-- No bindings at all. -/
def empty : Keyed κ ν := ⟨[], by simp⟩

theorem eq_of_entries_eq {m m' : Keyed κ ν} (h : m.entries = m'.entries) : m = m' := by
  cases m
  cases m'
  cases h
  rfl

instance : Inhabited (Keyed κ ν) := ⟨empty⟩

variable [DecidableEq κ]

/-- A list of bindings with `k` bound to `v`. -/
def bind (k : κ) (v : ν) : List (κ × ν) → List (κ × ν)
  | [] => [(k, v)]
  | (k', v') :: rest => if k' = k then (k, v) :: rest else (k', v') :: bind k v rest

theorem keys_bind (k : κ) (v : ν) (l : List (κ × ν)) :
    (bind k v l).map Prod.fst =
      if k ∈ l.map Prod.fst then l.map Prod.fst else l.map Prod.fst ++ [k] := by
  induction l with
  | nil => simp [bind]
  | cons e l ih =>
    obtain ⟨k', v'⟩ := e
    by_cases h : k' = k
    · subst h; simp [bind]
    · have h' : ¬ k = k' := fun e => h e.symm
      simp only [bind, h, if_false, List.map_cons, ih, List.mem_cons, h', false_or]
      split <;> simp

theorem nodup_bind (k : κ) (v : ν) {l : List (κ × ν)} (h : (l.map Prod.fst).Nodup) :
    ((bind k v l).map Prod.fst).Nodup := by
  rw [keys_bind]
  split
  · exact h
  · rename_i hk
    rw [List.nodup_append]
    refine ⟨h, by simp, ?_⟩
    intro a ha b hb
    rw [List.mem_singleton] at hb
    subst hb
    exact fun e => hk (e ▸ ha)

/-- A key that was bound before keeps its place. -/
theorem bind_append_cons {k : κ} {front : List (κ × ν)} (h : k ∉ front.map Prod.fst) (v w : ν)
    (back : List (κ × ν)) : bind k w (front ++ (k, v) :: back) = front ++ (k, w) :: back := by
  induction front with
  | nil => exact if_pos rfl
  | cons e front ih =>
    rw [List.map_cons, List.mem_cons, not_or] at h
    rw [List.cons_append, bind, if_neg (Ne.symm h.1), ih h.2, List.cons_append]

/-- A new key comes last. -/
theorem bind_of_notMem {k : κ} {l : List (κ × ν)} (h : k ∉ l.map Prod.fst) (v : ν) :
    bind k v l = l ++ [(k, v)] := by
  induction l with
  | nil => rfl
  | cons e l ih =>
    rw [List.map_cons, List.mem_cons, not_or] at h
    rw [bind, if_neg (Ne.symm h.1), ih h.2, List.cons_append]

/-- The value bound to a key. -/
def get? (m : Keyed κ ν) (k : κ) : Option ν := m.entries.lookup k

/-- Binds a key, in place of its former value if it has one. -/
def put (m : Keyed κ ν) (k : κ) (v : ν) : Keyed κ ν :=
  ⟨bind k v m.entries, nodup_bind k v m.distinct⟩

/-- Forgets a key. -/
def erase (m : Keyed κ ν) (k : κ) : Keyed κ ν :=
  ⟨m.entries.filter (·.1 ≠ k),
    List.Sublist.nodup (List.Sublist.map _ List.filter_sublist) m.distinct⟩

/-! ## Looking up in a list of bindings -/

theorem lookup_cons_of_ne {k k' : κ} (h : k' ≠ k) (v : ν) (l : List (κ × ν)) :
    ((k', v) :: l).lookup k = l.lookup k := by
  rw [List.lookup_cons, beq_false_of_ne h.symm]

theorem lookup_bind (k j : κ) (v : ν) (l : List (κ × ν)) :
    (bind k v l).lookup j = if j = k then some v else l.lookup j := by
  induction l with
  | nil =>
    by_cases h : j = k
    · subst h; simp [bind]
    · simp [bind, h, lookup_cons_of_ne (Ne.symm h)]
  | cons e l ih =>
    obtain ⟨k', v'⟩ := e
    by_cases hk : k' = k
    · subst hk
      by_cases h : j = k'
      · subst h; simp [bind]
      · simp [bind, h, lookup_cons_of_ne (Ne.symm h)]
    · by_cases h : k' = j
      · subst h; simp [bind, hk]
      · simp [bind, hk, lookup_cons_of_ne h, ih]

theorem lookup_filter_ne (k j : κ) (l : List (κ × ν)) :
    (l.filter (·.1 ≠ k)).lookup j = if j = k then none else l.lookup j := by
  induction l with
  | nil => simp
  | cons e l ih =>
    obtain ⟨k', v'⟩ := e
    by_cases hk : k' = k
    · subst hk
      rw [List.filter_cons_of_neg (by simp), ih]
      by_cases h : j = k'
      · rw [if_pos h, if_pos h]
      · rw [lookup_cons_of_ne (Ne.symm h)]
    · rw [List.filter_cons_of_pos (by simp [hk])]
      by_cases h : k' = j
      · subst h; simp [hk]
      · rw [lookup_cons_of_ne h, lookup_cons_of_ne h, ih]

theorem isSome_lookup_iff {k : κ} {l : List (κ × ν)} :
    (l.lookup k).isSome ↔ k ∈ l.map Prod.fst := by
  rw [List.lookup_isSome_iff, List.mem_map]
  simp only [beq_iff_eq]
  exact exists_congr fun _ => and_congr_right fun _ => eq_comm

theorem lookup_eq_none_iff {k : κ} {l : List (κ × ν)} :
    l.lookup k = none ↔ k ∉ l.map Prod.fst := by
  rw [← isSome_lookup_iff, Option.not_isSome_iff_eq_none]

theorem lookup_eq_some_iff {k : κ} {v : ν} {l : List (κ × ν)} (hl : (l.map Prod.fst).Nodup) :
    l.lookup k = some v ↔ (k, v) ∈ l := by
  rw [List.lookup_eq_some_iff]
  constructor
  · rintro ⟨front, back, rfl, -⟩
    exact List.mem_append_right _ (List.mem_cons_self ..)
  · intro h
    obtain ⟨front, back, rfl⟩ := List.append_of_mem h
    rw [List.map_append, List.map_cons, List.nodup_append] at hl
    refine ⟨front, back, rfl, fun e he => bne_iff_ne.2 fun heq => ?_⟩
    exact hl.2.2 e.1 (List.mem_map_of_mem he) k (List.mem_cons_self ..) heq.symm

/-! ## Looking up, binding and forgetting -/

theorem get?_put (m : Keyed κ ν) (k j : κ) (v : ν) :
    (m.put k v).get? j = if j = k then some v else m.get? j := lookup_bind k j v m.entries

@[simp] theorem get?_put_self (m : Keyed κ ν) (k : κ) (v : ν) : (m.put k v).get? k = some v := by
  simp [get?_put]

theorem get?_put_of_ne (m : Keyed κ ν) {k j : κ} (v : ν) (h : j ≠ k) :
    (m.put k v).get? j = m.get? j := by
  simp [get?_put, h]

@[simp] theorem get?_empty (k : κ) : (empty : Keyed κ ν).get? k = none := rfl

theorem keys_put (m : Keyed κ ν) (k : κ) (v : ν) :
    (m.put k v).keys = if k ∈ m.keys then m.keys else m.keys ++ [k] := keys_bind k v m.entries

theorem get?_erase (m : Keyed κ ν) (k j : κ) :
    (m.erase k).get? j = if j = k then none else m.get? j := lookup_filter_ne k j m.entries

theorem get?_eq_none_iff {m : Keyed κ ν} {k : κ} : m.get? k = none ↔ k ∉ m.keys :=
  lookup_eq_none_iff

theorem isSome_get?_iff {m : Keyed κ ν} {k : κ} : (m.get? k).isSome ↔ k ∈ m.keys :=
  isSome_lookup_iff

theorem mem_entries_iff {m : Keyed κ ν} {k : κ} {v : ν} :
    (k, v) ∈ m.entries ↔ m.get? k = some v := (lookup_eq_some_iff m.distinct).symm

end Keyed

end Apportion
