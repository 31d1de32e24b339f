/-
  What a cursor yields over whole runs, in which steps, items and looks are asked for in any order.

  * `Request`, `Answer`, `serve`: what can be asked of a cursor, and what it answers.
  * `Answer.yields`: the references that an answer hands over; a step forward hands over the one
    that the cursor then stands on.
  * `Produces c items c'`: from `c` a cursor gets to `c'` and hands over `items` on the way.  Every
    request does so (`produces_serve`), and therefore every run (`produces_run`).
  * `run_start`: from the start the references are handed over once each and in order, and an
    exhausted cursor stays exhausted.
-/
import Apportion.Proofs.Cursor

namespace Apportion

namespace Cursor

/-! ## Requests -/

/-- What can be asked of a cursor. -/
inductive Request
  | advance
  | next
  /-- All items that are left. -/
  | collect
  | look

/-- What a cursor answers. -/
inductive Answer
  | moved (there : Bool)
  | item (item? : Option (Nat × String))
  | rest (items : List (Nat × String))
  | seen (item? : Option (Nat × String))

namespace Answer

/-- The references that an answer hands over, with their indices.  A step forward hands over the one
    that the cursor then stands on; a look hands over nothing. -/
def yields (c : Cursor) : Answer → List (Nat × String)
  | moved there => if there then c.current.toList else []
  | item item? => item?.toList
  | rest items => items
  | seen _ => []

/-- Whether an answer tells that nothing is left. -/
def isEnd : Answer → Bool
  | moved there => !there
  | item item? => item?.isNone
  | rest _ => true
  | seen _ => false

end Answer

/-- The answer to a request, and the cursor that it leaves. -/
def serve (c : Cursor) : Request → Answer × Cursor
  | .advance => (.moved c.advance.1, c.advance.2)
  | .next => (.item c.next.1, c.next.2)
  | .collect => (.rest c.drain.1, c.drain.2)
  | .look => (.seen c.current, c)

/-- The references handed over for requests made one after the other, and the cursor that they
    leave. -/
def run (c : Cursor) : List Request → List (Nat × String) × Cursor
  | [] => ([], c)
  | r :: later =>
    ((c.serve r).1.yields (c.serve r).2 ++ ((c.serve r).2.run later).1, ((c.serve r).2.run later).2)

/-! ## How far a cursor has come -/

/-- How many references a cursor has handed over. -/
def passed (c : Cursor) : Nat :=
  match c.position with
  | .unstarted => 0
  | .on index => index + 1
  | .exhausted => c.split.paths.length

/-- A cursor stands on references of its split. -/
def Inside (c : Cursor) : Prop := ∀ i, c.position = .on i → i < c.split.paths.length

/-- From `c` a cursor gets to `c'`, handing over `items`: those that come next in the split, up to
    the one that `c'` stands on. -/
structure Produces (c : Cursor) (items : List (Nat × String)) (c' : Cursor) : Prop where
  split : c'.split = c.split
  inside : c'.Inside
  items : ((List.range c.split.paths.length).zip c.split.paths).take c.passed ++ items =
    ((List.range c.split.paths.length).zip c.split.paths).take c'.passed

variable {c c' c'' : Cursor} {items items' : List (Nat × String)}

theorem Produces.refl (h : c.Inside) : Produces c [] c := ⟨rfl, h, List.append_nil _⟩

theorem Produces.trans (h : Produces c items c') (h' : Produces c' items' c'') :
    Produces c (items ++ items') c'' where
  split := h'.split.trans h.split
  inside := h'.inside
  items := by
    have hlater := h'.items
    rw [h.split] at hlater
    rw [← List.append_assoc, h.items, hlater]

theorem inside_start (s : Split) : (start s).Inside := fun i hi => by cases hi

theorem current_of_on {i : Nat} (h : c.Inside) (hi : c.position = .on i) :
    ∃ hlt : i < c.split.paths.length, c.current = some (i, c.split.paths[i]) := by
  refine ⟨h i hi, ?_⟩
  rw [current, hi]
  dsimp only
  rw [List.getElem?_eq_getElem (h i hi), Option.map_some]

theorem current_of_ne (h : ∀ i, c.position ≠ .on i) : c.current = none := by
  unfold current
  split
  · rename_i i hi
    exact absurd hi (h i)
  · rfl

/-! ## One request -/

/-- Where the following reference is, if the walk is not over. -/
theorem following_cases (h : c.Inside) : c.position = .exhausted ∨
    ∃ k, c.position.following = some k ∧ c.passed = k ∧ k ≤ c.split.paths.length := by
  unfold passed
  cases hposition : c.position with
  | unstarted => exact Or.inr ⟨0, rfl, rfl, Nat.zero_le _⟩
  | on i => exact Or.inr ⟨i + 1, rfl, rfl, h i hposition⟩
  | exhausted => exact Or.inl rfl

theorem next_of_exhausted (h : c.position = .exhausted) : c.next = (none, c) := by
  simp only [next, advance, h, Position.following]

/-- An item is the reference that a step forward leads to. -/
theorem next_eq (c : Cursor) :
    c.next = (if c.advance.1 then c.advance.2.current else none, c.advance.2) := by
  unfold next
  rcases c.advance with ⟨_ | _, c'⟩ <;> rfl

theorem produces_next (h : c.Inside) : Produces c c.next.1.toList c.next.2 := by
  rcases following_cases h with hend | ⟨k, hk, hpassed, hle⟩
  · rw [next_of_exhausted hend]
    exact .refl h
  · rcases Nat.lt_or_eq_of_le hle with hlt | heq
    · rw [next_of_lt hk hlt]
      have hlength : k < ((List.range c.split.paths.length).zip c.split.paths).length := by
        rw [List.length_zip, List.length_range, Nat.min_self]
        exact hlt
      refine ⟨rfl, fun i hi => ?_, ?_⟩
      · cases hi
        exact hlt
      · rw [hpassed]
        change _ = List.take (k + 1) _
        rw [List.take_succ_eq_append_getElem hlength, List.getElem_zip, List.getElem_range]
        rfl
    · rw [next_of_le hk (Nat.le_of_eq heq.symm)]
      refine ⟨rfl, fun i hi => (nomatch hi), ?_⟩
      rw [hpassed, heq]
      exact List.append_nil _

theorem produces_drainWithin (fuel : Nat) (h : c.Inside) :
    Produces c (c.drainWithin fuel).1 (c.drainWithin fuel).2 := by
  induction fuel generalizing c with
  | zero => exact .refl h
  | succ fuel ih =>
    have hnext := produces_next h
    unfold drainWithin
    rcases hitem : c.next with ⟨_ | item, mid⟩
    · rw [hitem] at hnext
      exact hnext
    · rw [hitem] at hnext
      exact hnext.trans (ih hnext.inside)

/-- **Every request hands over the references that come next.** -/
theorem produces_serve (h : c.Inside) (r : Request) :
    Produces c ((c.serve r).1.yields (c.serve r).2) (c.serve r).2 := by
  cases r with
  | advance =>
    have hnext := produces_next h
    rw [next_eq] at hnext
    change Produces c (if c.advance.1 then c.advance.2.current.toList else []) c.advance.2
    cases hthere : c.advance.1 <;> rw [hthere] at hnext <;> exact hnext
  | next => exact produces_next h
  | collect => exact produces_drainWithin _ h
  | look => exact .refl h

theorem exhausted_of_next (h : c.Inside) (hnone : c.next.1 = none) :
    c.next.2.position = .exhausted := by
  rcases following_cases h with hend | ⟨k, hk, -, hle⟩
  · rw [next_of_exhausted hend]
    exact hend
  · rcases Nat.lt_or_eq_of_le hle with hlt | heq
    · rw [next_of_lt hk hlt] at hnone
      cases hnone
    · rw [next_of_le hk (Nat.le_of_eq heq.symm)]

theorem exhausted_of_drain (h : c.Inside) : c.drain.2.position = .exhausted := by
  rcases following_cases h with hend | ⟨k, hk, -, hle⟩
  · rw [drain, drainWithin, next_of_exhausted hend]
    exact hend
  · rw [drain, (drainWithin_eq hk hle (by omega)).2 (by omega)]

/-- A cursor that answers that nothing is left is exhausted. -/
theorem exhausted_of_isEnd (h : c.Inside) {r : Request} (hend : (c.serve r).1.isEnd) :
    (c.serve r).2.position = .exhausted := by
  cases r with
  | advance =>
    have hthere : c.advance.1 = false := (Bool.not_eq_eq_eq_not ..).1 hend
    have hover := exhausted_of_next h (by rw [next_eq, hthere]; rfl)
    rw [next_eq] at hover
    exact hover
  | next => exact exhausted_of_next h (Option.isNone_iff_eq_none.1 hend)
  | collect => exact exhausted_of_drain h
  | look => cases hend

/-- No request takes an exhausted cursor back. -/
theorem serve_of_exhausted (h : c.position = .exhausted) (r : Request) : (c.serve r).2 = c := by
  have hnext := next_of_exhausted h
  cases r with
  | advance =>
    rw [next_eq] at hnext
    exact (Prod.mk.inj hnext).2
  | next => exact congrArg Prod.snd hnext
  | collect =>
    change (c.drainWithin _).2 = c
    rw [drainWithin, hnext]
  | look => rfl

/-! ## Whole runs -/

/-- **Every run hands over the references that come next.** -/
theorem produces_run (h : c.Inside) (requests : List Request) :
    Produces c (c.run requests).1 (c.run requests).2 := by
  induction requests generalizing c with
  | nil => exact .refl h
  | cons r later ih =>
    have hfirst := produces_serve h r
    exact hfirst.trans (ih hfirst.inside)

theorem run_of_exhausted (h : c.position = .exhausted) (requests : List Request) :
    (c.run requests).2 = c := by
  induction requests with
  | nil => rfl
  | cons r later ih =>
    change ((c.serve r).2.run later).2 = c
    rw [serve_of_exhausted h, ih]

theorem Inside.passed_le (h : c.Inside) : c.passed ≤ c.split.paths.length := by
  unfold passed
  cases hposition : c.position with
  | unstarted => exact Nat.zero_le _
  | on i => exact h i hposition
  | exhausted => exact Nat.le_refl _

/-- **A split is walked once, in order, whatever is asked.**  After any requests to a cursor at the
    start of a split

    * the `k`-th reference handed over, counted from zero, is the `k`-th of the split under the index
      `k`; they are all of them once the cursor is exhausted, and those up to the one that it stands
      on before;
    * a cursor that stands on a reference has an index of the split, and shows this reference; any
      other shows none;
    * once an answer told that nothing is left, the cursor is exhausted after all further requests. -/
theorem run_start (s : Split) (requests : List Request) :
    let items := ((start s).run requests).1
    let c := ((start s).run requests).2
    (∀ k (hk : k < items.length), ∃ h : k < s.paths.length, items[k] = (k, s.paths[k])) ∧
    (c.position = .exhausted → items.length = s.paths.length) ∧
    (∀ i, c.position = .on i → items.length = i + 1 ∧
      ∃ h : i < s.paths.length, c.current = some (i, s.paths[i])) ∧
    ((∀ i, c.position ≠ .on i) → c.current = none) ∧
    ∀ r, (c.serve r).1.isEnd → ∀ later, ((c.serve r).2.run later).2.position = .exhausted := by
  intro items c
  have hproduces : Produces (start s) items c := produces_run (inside_start s) requests
  have hsplit : c.split = s := hproduces.split
  have hitems : items = ((List.range s.paths.length).zip s.paths).take c.passed := hproduces.items
  have hle : c.passed ≤ s.paths.length := hsplit ▸ hproduces.inside.passed_le
  have hlength : items.length = c.passed := by
    rw [hitems, List.length_take, List.length_zip, List.length_range, Nat.min_self,
      Nat.min_eq_left hle]
  refine ⟨fun k hk => ?_, fun hend => ?_, fun i hi => ⟨?_, ?_⟩, current_of_ne, ?_⟩
  · refine ⟨Nat.lt_of_lt_of_le (hlength ▸ hk) hle, ?_⟩
    simp only [hitems, List.getElem_take, List.getElem_zip, List.getElem_range]
  · rw [hlength, passed, hend, hsplit]
  · rw [hlength, passed, hi]
  · rw [← hsplit]
    exact current_of_on hproduces.inside hi
  · intro r hend later
    have hover := exhausted_of_isEnd hproduces.inside hend
    rw [run_of_exhausted hover]
    exact hover

/-- Three references, of which a step, an item and the rest hand over one each. -/
example : ((start (.of ["a", "b", "c"] [])).run [.look, .advance, .next, .look, .collect, .next]).1 =
    [(0, "a"), (1, "b"), (2, "c")] := by decide

end Cursor

end Apportion
