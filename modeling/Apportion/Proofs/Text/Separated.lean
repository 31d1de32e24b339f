/-
  Texts with a separator between them, and what comes of cutting them apart there.

  * `splitOn_cons_self`, `splitOn_cons_of_ne`: one character more at the front; `splitOn_injective`.
  * `notMem_of_mem_splitOn`, `subset_of_mem_splitOn`: what is in a piece.
  * `intercalate_append`, `intercalate_prefix`: more pieces, or some of them.
  * `splitOn_lines`: lines are found again in their text.
  * `suffix_iff_of_splitOn`: what a text ends in, if the separator is not in it.
-/
import Mathlib.Data.List.Basic

namespace Apportion

namespace Text

variable {sep : Char} {cs piece : List Char} {ps qs : List (List Char)}

/-! ## Cutting -/

theorem splitOn_injective {cs' : List Char} (h : cs.splitOn sep = cs'.splitOn sep) : cs = cs' := by
  rw [← @List.intercalate_splitOn _ cs _ _ sep, h, List.intercalate_splitOn]

theorem splitOn_cons_self (sep : Char) (cs : List Char) :
    (sep :: cs).splitOn sep = [] :: cs.splitOn sep := List.splitOn_append_cons_self [] cs

theorem splitOn_cons_of_ne {c : Char} (hc : c ≠ sep) (h : cs.splitOn sep = piece :: ps) :
    (c :: cs).splitOn sep = (c :: piece) :: ps := by
  rw [List.splitOn_cons_eq_if_modifyHead, if_neg (by simpa using hc), h, List.modifyHead_cons]

theorem notMem_of_mem_splitOn (h : piece ∈ cs.splitOn sep) : sep ∉ piece := by
  induction cs generalizing piece with
  | nil =>
    rw [List.splitOn_nil, List.mem_singleton] at h
    rw [h]
    exact List.not_mem_nil
  | cons c cs ih =>
    by_cases hc : c = sep
    · subst hc
      rw [splitOn_cons_self] at h
      rcases List.mem_cons.1 h with rfl | h
      · exact List.not_mem_nil
      · exact ih h
    · obtain ⟨p, ps, hp⟩ := List.exists_cons_of_ne_nil (List.splitOn_ne_nil sep cs)
      rw [splitOn_cons_of_ne hc hp] at h
      rcases List.mem_cons.1 h with rfl | h
      · rw [List.mem_cons, not_or]
        exact ⟨Ne.symm hc, ih (hp ▸ List.mem_cons_self)⟩
      · exact ih (hp ▸ List.mem_cons_of_mem p h)

/-! ## Joining -/

theorem intercalate_append (hps : ps ≠ []) (hqs : qs ≠ []) :
    [sep].intercalate (ps ++ qs) = [sep].intercalate ps ++ sep :: [sep].intercalate qs := by
  obtain ⟨q, qs, rfl⟩ := List.exists_cons_of_ne_nil hqs
  induction ps with
  | nil => exact absurd rfl hps
  | cons p ps ih =>
    cases ps with
    | nil => simp
    | cons p' ps =>
      have ih := ih (List.cons_ne_nil p' ps)
      simp only [List.cons_append, List.intercalate_cons_cons] at ih ⊢
      rw [ih, List.append_assoc, List.append_assoc, List.append_assoc]

theorem intercalate_prefix (h : ps <+: qs) : [sep].intercalate ps <+: [sep].intercalate qs := by
  obtain ⟨more, rfl⟩ := h
  by_cases hps : ps = []
  · rw [hps]
    exact List.nil_prefix
  by_cases hmore : more = []
  · simp only [hmore, List.append_nil, List.prefix_rfl]
  · rw [intercalate_append hps hmore]
    exact List.prefix_append ..

theorem subset_intercalate (h : piece ∈ ps) : piece ⊆ [sep].intercalate ps := by
  induction ps with
  | nil => cases h
  | cons p ps ih =>
    by_cases hps : ps = []
    · rw [hps, List.mem_singleton] at h
      rw [hps, List.intercalate_singleton, h]
      exact List.Subset.refl p
    · rw [List.intercalate_cons_of_ne_nil hps]
      rcases List.mem_cons.1 h with rfl | h
      · exact fun c hc => List.mem_append_left _ (List.mem_append_left _ hc)
      · exact fun c hc => List.mem_append_right _ (ih h hc)

theorem mem_intercalate {sep : List Char} {ps : List (List Char)} {c : Char}
    (h : c ∈ sep.intercalate ps) : c ∈ sep ∨ ∃ p ∈ ps, c ∈ p := by
  induction ps with
  | nil => cases h
  | cons p ps ih =>
    by_cases hps : ps = []
    · rw [hps, List.intercalate_singleton] at h
      exact Or.inr ⟨p, List.mem_cons_self, h⟩
    · rw [List.intercalate_cons_of_ne_nil hps, List.mem_append, List.mem_append] at h
      rcases h with (h | h) | h
      · exact Or.inr ⟨p, List.mem_cons_self, h⟩
      · exact Or.inl h
      · rcases ih h with h | ⟨q, hq, h⟩
        · exact Or.inl h
        · exact Or.inr ⟨q, List.mem_cons_of_mem p hq, h⟩

/-! ## Cutting what was joined -/

theorem subset_of_mem_splitOn (h : piece ∈ cs.splitOn sep) : piece ⊆ cs := by
  have hsubset := @subset_intercalate sep _ _ h
  rwa [List.intercalate_splitOn] at hsubset

/-- Lines are found again in their text, with an empty piece behind the last one. -/
theorem splitOn_lines {lines : List (List Char)} (h : ∀ l ∈ lines, sep ∉ l) :
    (lines.flatMap (· ++ [sep])).splitOn sep = lines ++ [[]] := by
  induction lines with
  | nil => rfl
  | cons l lines ih =>
    obtain ⟨hl, hlines⟩ := List.forall_mem_cons.1 h
    rw [List.flatMap_cons, List.append_assoc, List.singleton_append,
      List.splitOn_append_cons_self_of_not_mem hl, ih hlines, List.cons_append]

/-- An end without the separator is an end of the last piece. -/
theorem suffix_iff_of_splitOn {last tail : List Char} (hcs : cs.splitOn sep = ps ++ [last])
    (htail : sep ∉ tail) : tail <:+ cs ↔ tail <:+ last := by
  have hjoin : [sep].intercalate (cs.splitOn sep) = cs := List.intercalate_splitOn sep
  rw [hcs] at hjoin
  by_cases hps : ps = []
  · rw [hps, List.nil_append, List.intercalate_singleton] at hjoin
    rw [hjoin]
  · rw [intercalate_append hps (List.cons_ne_nil last []), List.intercalate_singleton] at hjoin
    have hbehind : sep :: last <:+ cs := ⟨_, hjoin⟩
    constructor
    · intro h
      rcases List.suffix_or_suffix_of_suffix h hbehind with hshort | hlong
      · rcases List.suffix_cons_iff.1 hshort with heq | hlast
        · exact absurd (heq ▸ List.mem_cons_self) htail
        · exact hlast
      · exact absurd (hlong.subset List.mem_cons_self) htail
    · intro h
      exact h.trans ((List.suffix_cons sep last).trans hbehind)

end Text

end Apportion
