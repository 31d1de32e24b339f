/-
  Plain paths: relative ones that are spelled with nothing but the names of entries.

  * `Path.names`: what stands between the slashes.
  * `IsPlain`: no empty name, no `.` and no `..`.
  * `IsPlain.components_eq`: the components are the names; `IsPlain.eq_of_components` and
    `eq_of_names`: paths with the same ones are the same.
  * `isAbsolute_join`, `join_join`: what joining paths does to their spelling.
  * `text_of_names_prefix`: a path with the first names of another one is spelled as its front.
-/
import Apportion.Path
import Apportion.Proofs.Text.Separated

namespace Apportion

namespace Path

/-- What stands between the slashes of a path. -/
def names (p : Path) : List String := (p.text.toList.splitOn '/').map String.ofList

/-- A relative path without empty names, `.` and `..`. -/
def IsPlain (p : Path) : Prop := ∀ name ∈ p.names, name ≠ "" ∧ name ≠ "." ∧ name ≠ ".."

instance (p : Path) : Decidable p.IsPlain := inferInstanceAs (Decidable (∀ name ∈ p.names, _))

variable {p q : Path}

theorem eq_of_names (h : p.names = q.names) : p = q := by
  obtain ⟨text⟩ := p
  obtain ⟨text'⟩ := q
  have hpieces := List.map_injective_iff.2 (fun _ _ => String.ofList_injective) h
  exact congrArg Path.mk (String.toList_injective (Text.splitOn_injective hpieces))

theorem names_ne_nil (p : Path) : p.names ≠ [] :=
  fun h => List.splitOn_ne_nil _ _ (List.map_eq_nil_iff.1 h)

/-- A path with the first names of another one is spelled as its front. -/
theorem text_of_names_prefix (h : p.names <+: q.names) : ∃ rest : String, q.text = p.text ++ rest := by
  obtain ⟨pieces, hpieces, hnames⟩ := List.prefix_map_iff.1 h
  have hp : p.text.toList.splitOn '/' = pieces :=
    List.map_injective_iff.2 (fun _ _ => String.ofList_injective) hnames
  obtain ⟨rest, hrest⟩ := @Text.intercalate_prefix '/' _ _ hpieces
  rw [← hp, List.intercalate_splitOn, List.intercalate_splitOn] at hrest
  refine ⟨String.ofList rest, String.toList_injective ?_⟩
  rw [String.toList_append, String.toList_ofList, hrest]

theorem IsPlain.of_names_prefix (hq : q.IsPlain) (h : p.names <+: q.names) : p.IsPlain :=
  fun name hname => hq name (h.subset hname)

theorem isAbsolute_iff : p.isAbsolute ↔ ∃ pieces ≠ [], p.text.toList.splitOn '/' = [] :: pieces := by
  unfold isAbsolute
  rw [decide_eq_true_iff]
  cases p.text.toList with
  | nil => simp
  | cons c cs =>
    by_cases hc : c = '/'
    · subst hc
      simp [Text.splitOn_cons_self]
    · obtain ⟨piece, pieces, hpieces⟩ := List.exists_cons_of_ne_nil (List.splitOn_ne_nil '/' cs)
      rw [Text.splitOn_cons_of_ne hc hpieces]
      simp [hc]

theorem IsPlain.not_isAbsolute (h : p.IsPlain) : p.isAbsolute = false := by
  rw [isAbsolute, decide_eq_false_iff_not]
  intro hhead
  obtain ⟨cs, hcs⟩ := List.head?_eq_some_iff.1 hhead
  have hempty : "" ∈ p.names := by
    rw [names, hcs, Text.splitOn_cons_self]
    exact List.mem_cons_self
  exact (h _ hempty).1 rfl

theorem IsPlain.piece_ne {piece : List Char} (h : p.IsPlain)
    (hpiece : piece ∈ p.text.toList.splitOn '/') :
    piece ≠ [] ∧ piece ≠ ['.'] ∧ piece ≠ ['.', '.'] := by
  obtain ⟨hempty, hhere, hup⟩ := h _ (List.mem_map_of_mem hpiece)
  refine ⟨?_, ?_, ?_⟩
  · rintro rfl
    exact hempty rfl
  · rintro rfl
    exact hhere rfl
  · rintro rfl
    exact hup rfl

theorem IsPlain.toList_ne_nil (h : p.IsPlain) : p.text.toList ≠ [] := by
  intro hnil
  have hempty : [] ∈ p.text.toList.splitOn '/' := by
    rw [hnil, List.splitOn_nil]
    exact List.mem_cons_self
  exact (h.piece_ne hempty).1 rfl

/-- A plain path does not end in a slash. -/
theorem IsPlain.getLast?_ne (h : p.IsPlain) : p.text.toList.getLast? ≠ some '/' := by
  intro hlast
  obtain ⟨cs, hcs⟩ := List.getLast?_eq_some_iff.1 hlast
  have hempty : [] ∈ p.text.toList.splitOn '/' := by
    rw [hcs, List.splitOn_append_cons_self, List.splitOn_nil]
    exact List.mem_append_right _ List.mem_cons_self
  exact (h.piece_ne hempty).1 rfl

theorem IsPlain.components_eq (h : p.IsPlain) : p.components = p.names.map .entry := by
  have hhead : (p.text.toList.splitOn '/').head? ≠ some ['.'] := by
    intro hhead
    exact (h.piece_ne (List.mem_of_mem_head? hhead)).2.1 rfl
  simp only [components, h.not_isAbsolute, hhead, if_false, Bool.false_eq_true, List.nil_append,
    names, List.map_map]
  rw [← List.filterMap_eq_map]
  refine List.filterMap_congr fun piece hpiece => ?_
  obtain ⟨hempty, hhere, hup⟩ := h.piece_ne hpiece
  simp only [Component.ofPiece?, hempty, hhere, hup, or_self, if_false, Function.comp_apply]

theorem IsPlain.components_prefix_iff (hp : p.IsPlain) (hq : q.IsPlain) :
    p.components <+: q.components ↔ p.names <+: q.names := by
  rw [hp.components_eq, hq.components_eq]
  exact List.prefix_map_iff_of_injective fun _ _ => Component.entry.inj

/-- Plain paths that name the same object are spelled alike. -/
theorem IsPlain.eq_of_components (hp : p.IsPlain) (hq : q.IsPlain)
    (h : p.components = q.components) : p = q := by
  rw [hp.components_eq, hq.components_eq] at h
  exact eq_of_names (List.map_injective_iff.2 (fun _ _ => Component.entry.inj) h)

theorem isAbsolute_join (hq : q.isAbsolute = false) : (p.join q).isAbsolute = p.isAbsolute := by
  obtain ⟨text⟩ := p
  simp only [join, hq, Bool.false_eq_true, if_false]
  cases hcs : text.toList with
  | nil =>
    rw [String.toList_eq_nil_iff] at hcs
    subst hcs
    simpa [isAbsolute] using hq
  | cons c cs => split <;> simp [isAbsolute, hcs]

/-- What joining puts before a relative path. -/
def lead (p : Path) : String :=
  if p.text.isEmpty || p.text.toList.getLast? = some '/' then p.text else p.text ++ "/"

theorem join_of_isAbsolute (p : Path) (hq : q.isAbsolute = true) : p.join q = q := if_pos hq

theorem join_eq (p : Path) (hq : q.isAbsolute = false) : p.join q = ⟨p.lead ++ q.text⟩ := by
  simp only [join, lead, hq, Bool.false_eq_true, if_false]
  split <;> rfl

/-- Joined paths are spelled alike but for the relative path that comes last. -/
theorem exists_text_join (p : Path) : ∃ lead : String,
    ∀ q : Path, q.isAbsolute = false → (p.join q).text = lead ++ q.text :=
  ⟨p.lead, fun _ hq => congrArg text (join_eq p hq)⟩

theorem mem_of_mem_lead (p : Path) {c : Char} (h : c ∈ p.lead.toList) (hc : c ≠ '/') :
    c ∈ p.text.toList := by
  unfold lead at h
  split at h
  · exact h
  · rw [String.toList_append] at h
    exact (List.mem_append.1 h).resolve_right fun hslash => hc (List.mem_singleton.1 hslash)

theorem lead_lead (p : Path) : (⟨p.lead⟩ : Path).lead = p.lead := by
  by_cases h : (p.text.isEmpty || p.text.toList.getLast? = some '/') = true
  · have hlead : p.lead = p.text := if_pos h
    rw [hlead]
    exact hlead
  · have hlead : p.lead = p.text ++ "/" := if_neg h
    rw [hlead, lead, if_pos (by simp)]

theorem lead_append {s : String} (hq : q.text ≠ "") : (⟨s ++ q.text⟩ : Path).lead = s ++ q.lead := by
  have hempty : (s ++ q.text).isEmpty = q.text.isEmpty := by
    rw [Bool.eq_iff_iff]
    simp [hq]
  have hlast : (s ++ q.text).toList.getLast? = q.text.toList.getLast? := by
    rw [String.toList_append, List.getLast?_append_of_ne_nil]
    exact fun e => hq (String.toList_eq_nil_iff.1 e)
  simp only [lead, hempty, hlast]
  split
  · rfl
  · rw [String.append_assoc]

theorem lead_join (p : Path) (hq : q.isAbsolute = false) : (p.join q).lead = p.lead ++ q.lead := by
  rw [join_eq p hq]
  by_cases hempty : q.text = ""
  · have hnone : q.lead = "" := by simp [lead, hempty]
    rw [hempty, hnone, String.append_empty, lead_lead]
  · exact lead_append hempty

/-- Paths may be joined from either end. -/
theorem join_join (p : Path) {r : Path} (hr : r.isAbsolute = false) :
    p.join (q.join r) = (p.join q).join r := by
  have hqr : (q.join r).isAbsolute = q.isAbsolute := isAbsolute_join hr
  cases hq : q.isAbsolute with
  | true => rw [join_of_isAbsolute p (hqr.trans hq), join_of_isAbsolute p hq]
  | false =>
    rw [join_eq p (hqr.trans hq), join_eq _ hr, join_eq _ hr, lead_join p hq, String.append_assoc]

end Path

end Apportion
