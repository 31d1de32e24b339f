/-
  What stands at the ends of texts.

  * `takeWhile_append_of_head`, `dropWhile_append_of_head`: characters of a kind at the front, up to
    the first that is of another.
  * `Trims`: a text without the blanks at its ends; `trims_iff`.
-/
import Apportion.Text.Blank
import Mathlib.Data.List.Basic
import Mathlib.Data.List.TakeWhile

namespace Apportion

namespace Text

/-! ## Fronts -/

section
variable {p : Char → Bool} {front rest : List Char}

theorem takeWhile_append_of_head (hfront : ∀ c ∈ front, p c) (hrest : ∀ c ∈ rest.head?, ¬ p c) :
    (front ++ rest).takeWhile p = front := by
  rw [List.takeWhile_append_of_pos hfront]
  cases rest with
  | nil => exact List.append_nil front
  | cons c rest => rw [List.takeWhile_cons_of_neg (hrest c rfl), List.append_nil]

theorem dropWhile_append_of_head (hfront : ∀ c ∈ front, p c) (hrest : ∀ c ∈ rest.head?, ¬ p c) :
    (front ++ rest).dropWhile p = rest := by
  rw [List.dropWhile_append_of_pos hfront]
  cases rest with
  | nil => rfl
  | cons c rest => exact List.dropWhile_cons_of_neg (hrest c rfl)

end

/-! ## Trimmed texts -/

/-- A text without the blanks at its ends. -/
structure Trims (cs trimmed : List Char) : Prop where
  /-- What is left out are blanks at the ends. -/
  ends : ∃ front back, cs = front ++ trimmed ++ back ∧ (∀ c ∈ front, isBlank c) ∧
    ∀ c ∈ back, isBlank c
  head : ∀ c ∈ trimmed.head?, ¬ isBlank c
  last : ∀ c ∈ trimmed.getLast?, ¬ isBlank c

variable {cs trimmed : List Char}

/-- A text is trimmed in one way. -/
theorem trims_iff : Trims cs trimmed ↔ trim cs = trimmed := by
  constructor
  · rintro ⟨⟨front, back, rfl, hfront, hback⟩, hhead, hlast⟩
    rw [trim]
    by_cases htrimmed : trimmed = []
    · have hall : ∀ c ∈ front ++ back, isBlank c := fun c hc =>
        (List.mem_append.1 hc).elim (hfront c) (hback c)
      rw [htrimmed, List.append_nil, List.dropWhile_eq_nil_iff.2 hall]
      rfl
    · have hhead' : ∀ c ∈ (trimmed ++ back).head?, ¬ isBlank c := by
        rwa [List.head?_append_of_ne_nil _ htrimmed]
      rw [List.append_assoc, dropWhile_append_of_head hfront hhead', List.reverse_append,
        dropWhile_append_of_head, List.reverse_reverse]
      · exact fun c hc => hback c (List.mem_reverse.1 hc)
      · rwa [List.head?_reverse]
  · rintro rfl
    rw [trim]
    have hblank : ∀ {l : List Char}, ∀ c ∈ l.takeWhile isBlank, isBlank c :=
      fun c => List.mem_takeWhile_imp
    have hkept : ∀ {l : List Char}, ∀ c ∈ (l.dropWhile isBlank).head?, ¬ isBlank c := by
      intro l c hc
      have hfirst := List.head?_dropWhile_not isBlank l
      rw [Option.mem_def.1 hc] at hfirst
      exact Bool.eq_false_iff.1 hfirst
    generalize hrest : cs.dropWhile isBlank = rest
    have hparts : rest = (rest.reverse.dropWhile isBlank).reverse ++
        (rest.reverse.takeWhile isBlank).reverse := by
      rw [← List.reverse_append, List.takeWhile_append_dropWhile, List.reverse_reverse]
    refine ⟨⟨cs.takeWhile isBlank, (rest.reverse.takeWhile isBlank).reverse, ?_, hblank, ?_⟩, ?_, ?_⟩
    · rw [List.append_assoc, ← hparts, ← hrest, List.takeWhile_append_dropWhile]
    · exact fun c hc => hblank c (List.mem_reverse.1 hc)
    · intro c hc
      refine hkept (l := cs) c ?_
      rw [hrest, hparts]
      exact List.mem_head?_append_of_mem_head? hc
    · rw [List.getLast?_reverse]
      exact hkept

end Text

end Apportion
