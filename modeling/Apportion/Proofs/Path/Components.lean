/-
  What paths are made of, and how one is spelled that goes on with a component.

  * `leading`, `inner`: the component that only a path as a whole can have, and those of its pieces.
  * `components_join`: joining paths joins their components, if the second one has none of its own
    in front.
  * `components_text`: a component is spelled as the path that it alone makes.
  * `Follows p q first`: `q` goes on from `p` with `first`; `Follows.components_join`: so does `p`
    joined with the spelling of `first`.
-/
import Apportion.Proofs.Path

namespace Apportion

namespace Path

variable {p q : Path} {first : Component} {piece : List Char}

/-- The component that tells where a path starts from, if it tells so. -/
def leading (p : Path) : List Component :=
  if p.isAbsolute then [.root]
  else if (p.text.toList.splitOn '/').head? = some ['.'] then [.here]
  else []

/-- The components of the pieces of a path. -/
def inner (p : Path) : List Component := (p.text.toList.splitOn '/').filterMap Component.ofPiece?

theorem components_eq_append (p : Path) : p.components = p.leading ++ p.inner := rfl

theorem length_leading_le (p : Path) : p.leading.length ≤ 1 := by
  unfold leading
  split
  · simp
  · split <;> simp

theorem mem_leading (h : first ∈ p.leading) : first = .root ∨ first = .here := by
  unfold leading at h
  split at h
  · exact Or.inl (List.mem_singleton.1 h)
  · split at h
    · exact Or.inr (List.mem_singleton.1 h)
    · cases h

/-! ## One component -/

theorem Component.ofPiece?_eq_some (h : Component.ofPiece? piece = some first) :
    first.text.toList = piece ∧ piece ≠ [] ∧ piece ≠ ['.'] := by
  unfold Component.ofPiece? at h
  split at h
  · cases h
  · rename_i hstep
    rw [not_or] at hstep
    split at h
    · rename_i hup
      cases h
      exact ⟨hup.symm, hstep⟩
    · cases h
      exact ⟨String.toList_ofList, hstep⟩

/-- A component of a piece is spelled as that piece. -/
theorem pieces_of_mem_inner (h : first ∈ p.inner) :
    first.text.toList.splitOn '/' = [first.text.toList] ∧
      Component.ofPiece? first.text.toList = some first ∧
      first.text.toList ≠ [] ∧ first.text.toList ≠ ['.'] := by
  obtain ⟨piece, hpiece, hfirst⟩ := List.mem_filterMap.1 h
  obtain ⟨htext, hne⟩ := Component.ofPiece?_eq_some hfirst
  rw [htext]
  exact ⟨List.splitOn_eq_singleton (Text.notMem_of_mem_splitOn hpiece), hfirst, hne⟩

theorem not_isAbsolute_of_mem_inner (h : first ∈ p.inner) :
    (⟨first.text⟩ : Path).isAbsolute = false := by
  rw [Bool.eq_false_iff]
  intro habsolute
  obtain ⟨more, hne, hpieces⟩ := isAbsolute_iff.1 habsolute
  rw [(pieces_of_mem_inner h).1] at hpieces
  exact hne (List.cons.inj hpieces).2.symm

/-- A component is spelled as the path that it alone makes. -/
theorem components_text (h : first ∈ p.components) : (⟨first.text⟩ : Path).components = [first] := by
  rw [components_eq_append, List.mem_append] at h
  rcases h with h | h
  · rcases mem_leading h with rfl | rfl <;> decide
  · obtain ⟨hpieces, hfirst, -, hhere⟩ := pieces_of_mem_inner h
    rw [components_eq_append, leading, inner, not_isAbsolute_of_mem_inner h, hpieces]
    simp [hhere, hfirst]

theorem text_eq_of_components_eq_nil (h : p.components = []) : p.text = "" := by
  rw [components_eq_append, List.append_eq_nil_iff] at h
  obtain ⟨hleading, hinner⟩ := h
  obtain ⟨piece, more, hpieces⟩ :=
    List.exists_cons_of_ne_nil (List.splitOn_ne_nil '/' p.text.toList)
  have hrelative : ¬ p.isAbsolute := by
    intro habsolute
    rw [leading, if_pos habsolute] at hleading
    cases hleading
  have hhere : piece ≠ ['.'] := by
    rintro rfl
    rw [leading, if_neg hrelative, hpieces, List.head?_cons, if_pos rfl] at hleading
    cases hleading
  -- a first piece without a component is empty, and the only one of a relative path
  have hempty : piece = [] := by
    by_contra hne
    rw [inner, hpieces, List.filterMap_eq_nil_iff] at hinner
    have hnone := hinner piece List.mem_cons_self
    rw [Component.ofPiece?, if_neg (by simp [hne, hhere])] at hnone
    split at hnone <;> cases hnone
  have hmore : more = [] := by
    by_contra hne
    exact hrelative (isAbsolute_iff.2 ⟨more, hne, hempty ▸ hpieces⟩)
  rw [hempty, hmore, ← List.splitOn_nil '/'] at hpieces
  exact String.toList_eq_nil_iff.1 (Text.splitOn_injective hpieces)

/-- What comes behind another component is none that leads. -/
theorem mem_inner_of_behind {above more : List Component}
    (h : p.components = above ++ first :: more) (hne : above ≠ []) : first ∈ p.inner := by
  obtain ⟨start, above, rfl⟩ := List.exists_cons_of_ne_nil hne
  have hshort := p.length_leading_le
  rw [components_eq_append] at h
  cases hleading : p.leading with
  | nil =>
    rw [hleading, List.nil_append] at h
    rw [h]
    simp
  | cons c cs =>
    have hcs : cs = [] := by simpa [hleading] using hshort
    rw [hleading, hcs] at h
    have hinner : p.inner = above ++ first :: more := (List.cons.inj h).2
    rw [hinner]
    simp

/-! ## Joining -/

/-- A joined path has the pieces of the second one behind those of the first, but for an empty last
    one. -/
theorem pieces_join (hp : p.text ≠ "") (hq : q.isAbsolute = false) :
    ∃ front, (p.join q).text.toList.splitOn '/' = front ++ q.text.toList.splitOn '/' ∧
      front.head? = (p.text.toList.splitOn '/').head? ∧
      front.filterMap Component.ofPiece? = p.inner := by
  have hjoin := congrArg (fun r => r.text.toList) (join_eq p hq)
  simp only [String.toList_append, lead] at hjoin
  by_cases hslash : p.text.toList.getLast? = some '/'
  · obtain ⟨cs, hcs⟩ := List.getLast?_eq_some_iff.1 hslash
    obtain ⟨piece, more, hpieces⟩ := List.exists_cons_of_ne_nil (List.splitOn_ne_nil '/' cs)
    have hpiecesp : p.text.toList.splitOn '/' = cs.splitOn '/' ++ [[]] := by
      rw [hcs, List.splitOn_append_cons_self, List.splitOn_nil]
    refine ⟨cs.splitOn '/', ?_, by rw [hpiecesp, hpieces]; rfl, ?_⟩
    · rw [hjoin, if_pos (by simp [hslash]), hcs, List.append_assoc, List.singleton_append,
        List.splitOn_append_cons_self]
    · rw [inner, hpiecesp, List.filterMap_append]
      exact (List.append_nil _).symm
  · refine ⟨p.text.toList.splitOn '/', ?_, rfl, rfl⟩
    have hlead : ¬ (p.text.isEmpty || decide (p.text.toList.getLast? = some '/')) = true := by
      simp [hp, hslash]
    rw [hjoin, if_neg hlead, String.toList_append, List.append_assoc]
    exact List.splitOn_append_cons_self _ _

/-- **Joining paths joins their components**, if the second one has none that leads it. -/
theorem components_join (p : Path) (hq : q.leading = []) :
    (p.join q).components = p.components ++ q.components := by
  have hrelative : q.isAbsolute = false := by
    rw [Bool.eq_false_iff]
    intro habsolute
    rw [leading, if_pos habsolute] at hq
    cases hq
  by_cases hp : p.text = ""
  · obtain ⟨text⟩ := p
    cases hp
    have hjoin : (⟨""⟩ : Path).join q = q := by
      rw [join_eq _ hrelative]
      exact congrArg Path.mk (String.empty_append (s := q.text))
    rw [hjoin]
    rfl
  · obtain ⟨front, hpieces, hhead, hinner⟩ := pieces_join hp hrelative
    have hne : front ≠ [] := by
      rintro rfl
      exact List.splitOn_ne_nil '/' p.text.toList (List.head?_eq_none_iff.1 hhead.symm)
    have hleading : (p.join q).leading = p.leading := by
      rw [leading, leading, isAbsolute_join hrelative, hpieces, List.head?_append_of_ne_nil _ hne, hhead]
    rw [components_eq_append, components_eq_append, components_eq_append, hleading, hq, inner, hpieces,
      List.filterMap_append, hinner, List.append_assoc]
    rfl

/-! ## Going on -/

/-- `q` goes on from `p`, and first with the component `first`. -/
def Follows (p q : Path) (first : Component) : Prop :=
  ∃ more, q.components = p.components ++ first :: more

/-- A path that is joined with the next component on the way to another one is on that way. -/
theorem Follows.components_join (h : p.Follows q first) :
    (p.join ⟨first.text⟩).components = p.components ++ [first] := by
  obtain ⟨more, hmore⟩ := h
  have hmem : first ∈ q.components := hmore ▸ by simp
  by_cases hp : p.components = []
  · have hempty : p = ⟨""⟩ := congrArg Path.mk (text_eq_of_components_eq_nil hp)
    have hjoin : (⟨""⟩ : Path).join ⟨first.text⟩ = ⟨first.text⟩ := by
      simp [join]
    rw [hempty, hjoin, components_text hmem]
    rfl
  · have hinner : first ∈ q.inner := mem_inner_of_behind hmore hp
    obtain ⟨hpieces, -, -, hhere⟩ := pieces_of_mem_inner hinner
    have hleading : (⟨first.text⟩ : Path).leading = [] := by
      rw [leading, not_isAbsolute_of_mem_inner hinner, hpieces]
      simp [hhere]
    rw [Path.components_join p hleading, components_text hmem]

end Path

end Apportion
