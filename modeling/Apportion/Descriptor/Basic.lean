/-
  Descriptors: pieces of work, each on a byte range of a source file, and the
  bundles in which they are stored.

  * `Properties`: the rest of a piece of work, as texts under texts, sorted by key.
  * `Descriptor`: a source, a range and properties.
  * `Bundle`: what one descriptor file holds, a single descriptor or a container
    of any number.
-/

namespace Apportion

/-! ## Properties -/

/-- Texts under texts, sorted by key, each key bound once. -/
structure Properties where
  entries : List (String × String)
  /-- Keys rise. -/
  sorted : entries.Pairwise fun a b => a.1 < b.1
  deriving DecidableEq, Repr

namespace Properties

/-- No properties. -/
def empty : Properties := ⟨[], .nil⟩

/-- Binds a key in a sorted list; a former value is replaced. -/
def place (key value : String) : List (String × String) → List (String × String)
  | [] => [(key, value)]
  | (k, v) :: rest =>
    if key < k then (key, value) :: (k, v) :: rest
    else if k < key then (k, v) :: place key value rest
    else (key, value) :: rest

theorem fst_mem_place {key value k v : String} {l : List (String × String)}
    (h : (k, v) ∈ place key value l) : k = key ∨ (k, v) ∈ l := by
  induction l with
  | nil => simp only [place, List.mem_singleton, Prod.mk.injEq] at h; exact Or.inl h.1
  | cons e l ih =>
    obtain ⟨k', v'⟩ := e
    simp only [place] at h
    split at h
    · rcases List.mem_cons.1 h with h | h
      · exact Or.inl (Prod.mk.inj h).1
      · exact Or.inr h
    · split at h
      · rcases List.mem_cons.1 h with h | h
        · exact Or.inr (h ▸ List.mem_cons_self)
        · exact (ih h).imp_right (List.mem_cons_of_mem _)
      · rcases List.mem_cons.1 h with h | h
        · exact Or.inl (Prod.mk.inj h).1
        · exact Or.inr (List.mem_cons_of_mem _ h)

theorem sorted_place (key value : String) {l : List (String × String)}
    (h : l.Pairwise fun a b => a.1 < b.1) :
    (place key value l).Pairwise fun a b => a.1 < b.1 := by
  induction l with
  | nil => simp [place]
  | cons e l ih =>
    obtain ⟨k, v⟩ := e
    rw [List.pairwise_cons] at h
    simp only [place]
    split
    · rename_i hk
      refine List.pairwise_cons.2 ⟨?_, List.pairwise_cons.2 h⟩
      intro b hb
      rcases List.mem_cons.1 hb with rfl | hb
      · exact hk
      · exact String.lt_trans hk (h.1 b hb)
    · rename_i hk
      split
      · rename_i hk'
        refine List.pairwise_cons.2 ⟨?_, ih h.2⟩
        rintro ⟨k'', v''⟩ hb
        rcases fst_mem_place hb with rfl | hb
        · exact hk'
        · exact h.1 _ hb
      · rename_i hk'
        have : key = k := String.le_antisymm (String.not_lt.1 hk') (String.not_lt.1 hk)
        subst this
        exact List.pairwise_cons.2 ⟨fun b hb => h.1 b hb, h.2⟩

/-- Binds a key; a former value is replaced. -/
def insert (p : Properties) (key value : String) : Properties :=
  ⟨place key value p.entries, sorted_place key value p.sorted⟩

/-- The properties listed, of which a later one replaces an earlier one of the same key. -/
def ofList (l : List (String × String)) : Properties :=
  l.foldl (fun p (key, value) => p.insert key value) empty

end Properties

/-! ## Descriptors and bundles -/

/-- A piece of work on the bytes `[start, stop)` of a source file. -/
structure Descriptor where
  /-- The file the work reads; work without one goes with any hosts. -/
  source : Option String := none
  /-- The first byte. -/
  start : UInt64 := 0
  /-- The byte after the last one; the end of the file if there is none. -/
  stop : Option UInt64 := none
  properties : Properties := .empty
  deriving DecidableEq, Repr

/-- What a descriptor file holds. -/
inductive Bundle where
  /-- A descriptor of its own. -/
  | single (d : Descriptor)
  /-- Any number of descriptors in order. -/
  | container (ds : List Descriptor)
  deriving DecidableEq, Repr

namespace Bundle

/-- Whether a bundle is a container. -/
def isContainer : Bundle → Bool
  | single _ => false
  | container _ => true

/-- The descriptors of a bundle, in order. -/
def descriptors : Bundle → List Descriptor
  | single d => [d]
  | container ds => ds

end Bundle

end Apportion
