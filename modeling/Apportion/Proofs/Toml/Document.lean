/-
  Documents of sections are read as they were before they were written.

  * `Section.Sound`: sections with plain and distinct keys; `Section.statements`: what their lines say.
  * `exists_writeSections_eq_ok_iff`: which sections have a text.
  * `Statement.read?_header`, `Statement.read?_binding`: what one line says.
  * `Tells`: what the lines of a text say, however many may be read; `Tells.ofSections`: those of
    sections.
  * `Document.foldlM_statements`: a section adds its entry to a document.
  * `parse?_writeSections`: the text of sections is read as their entries.
-/
import Apportion.Proofs.Sequence
import Apportion.Proofs.Toml.Element
import Apportion.Toml.Document

namespace Apportion

namespace Toml

open Keyed (bind)

/-! ## Sections -/

namespace Section

/-- A section with plain keys, none of them twice. -/
structure Sound (s : Section) : Prop where
  name : IsBare s.name
  keys : ∀ key ∈ s.bindings.map Prod.fst, IsBare key
  distinct : (s.bindings.map Prod.fst).Nodup

theorem Sound.of_keys {name : String} {bindings : List (String × Literal)} {keys : List String}
    (hkeys : bindings.map Prod.fst = keys) (hname : IsBare name) (hbare : ∀ key ∈ keys, IsBare key)
    (hdistinct : keys.Nodup) : (Section.mk name bindings).Sound :=
  ⟨hname, hkeys ▸ hbare, hkeys ▸ hdistinct⟩

/-- What the lines of a section say. -/
def statements (s : Section) : List Statement :=
  .table [s.name] :: s.bindings.map fun (key, v) => .binding [key] v.value

end Section

/-! ## Texts of sections -/

/-- A value that has a text: a number has one up to the largest integer of the format. -/
def Literal.Fits : Literal → Prop
  | .natural n => n ≤ maxInteger
  | .text _ | .real _ | .texts _ => True

theorem Literal.exists_write_eq_ok_iff {v : Literal} : (∃ text, v.write = .ok text) ↔ v.Fits := by
  cases v with
  | natural n =>
    rw [write]
    by_cases hn : n ≤ maxInteger
    · exact iff_of_true ⟨_, if_pos hn⟩ hn
    · refine iff_of_false ?_ hn
      rw [if_neg hn]
      rintro ⟨text, ⟨⟩⟩
  | text s => exact iff_of_true ⟨_, rfl⟩ trivial
  | real x => exact iff_of_true ⟨_, rfl⟩ trivial
  | texts ss => exact iff_of_true ⟨_, rfl⟩ trivial

theorem Section.exists_write_eq_ok_iff {s : Section} :
    (∃ text, s.write = .ok text) ↔ ∀ b ∈ s.bindings, b.2.Fits := by
  have hline : ∀ b : String × Literal,
      (∃ line, Section.writeBinding b.1 b.2 = .ok line) ↔ b.2.Fits := by
    intro b
    rw [← Literal.exists_write_eq_ok_iff]
    exact Sequence.exists_bind_pure_eq_ok_iff
  simp only [← hline]
  rw [← Sequence.exists_mapM_eq_ok_iff]
  exact Sequence.exists_bind_pure_eq_ok_iff

/-- Sections have a text iff their numbers fit. -/
theorem exists_writeSections_eq_ok_iff {sections : List Section} :
    (∃ text, writeSections sections = .ok text) ↔ ∀ s ∈ sections, ∀ b ∈ s.bindings, b.2.Fits := by
  simp only [← Section.exists_write_eq_ok_iff]
  rw [← Sequence.exists_mapM_eq_ok_iff]
  exact Sequence.exists_bind_pure_eq_ok_iff

/-! ## Lines -/

namespace Statement

variable {key : String} {v : Literal} {line rest : List Char}

/-- The line of a header says that a table opens. -/
theorem read?_header (hkey : IsBare key) (rest : List Char) :
    Statement.read? ('[' :: key.toList ++ "]\n".toList ++ rest) = some (.table [key], rest) := by
  have htext : '[' :: key.toList ++ "]\n".toList ++ rest =
      '[' :: (key.toList ++ ']' :: '\n' :: rest) := by
    rw [List.append_assoc]
    rfl
  have hone : ∀ more, key.toList ++ ']' :: '\n' :: rest ≠ '[' :: more := by
    obtain ⟨c, cs, hcs, hc⟩ := hkey.exists_eq
    rw [hcs]
    exact fun more h => absurd (List.cons.inj h).1 (IsBare.ne_of_isBare hc (by decide))
  rw [htext]
  unfold Statement.read?
  split
  · rename_i heq
    exact absurd (List.cons.inj heq).2 (hone _)
  · rename_i heq
    obtain ⟨-, rfl⟩ := List.cons.inj heq
    rw [hkey.readPath?_bracket]
    rfl
  · rename_i hne
    exact absurd rfl (hne _)

/-- The line of a binding says what the key is bound to. -/
theorem read?_binding (hkey : IsBare key) (h : Section.writeBinding key v = .ok line)
    (rest : List Char) : Statement.read? (line ++ rest) = some (.binding [key] v.value, rest) := by
  obtain ⟨text, htext, hline⟩ := Sequence.bind_eq_ok_iff.1 h
  cases hline
  have hassoc : key.toList ++ " = ".toList ++ text ++ ['\n'] ++ rest =
      key.toList ++ (" = ".toList ++ (text ++ '\n' :: rest)) := by
    simp only [List.append_assoc, List.singleton_append]
  have hblank : ∀ c ∈ (text ++ '\n' :: rest).head?, ¬ isSpace c := by
    obtain ⟨c, cs, rfl, hc⟩ := Literal.exists_of_write htext
    rintro _ ⟨⟩
    exact hc
  have hstops : Stops ('\n' :: rest) := by
    rintro c ⟨⟩
    decide
  have hassigned := hkey.readAssigned?_append hblank
  obtain ⟨c, cs, hcs, hc⟩ := hkey.exists_eq
  have hbracket : c ≠ '[' := IsBare.ne_of_isBare hc (by decide)
  rw [hassoc]
  unfold Statement.read?
  split
  · rename_i heq
    rw [hcs] at heq
    exact absurd (List.cons.inj heq).1 hbracket
  · rename_i heq
    rw [hcs] at heq
    exact absurd (List.cons.inj heq).1 hbracket
  · rw [hassigned, Option.bind_eq_bind, Option.bind_some]
    dsimp only
    rw [Literal.readValue?_of_write htext hstops]
    rfl

end Statement

/-- What the lines of a text say. -/
def Tells (cs : List Char) (statements : List Statement) : Prop :=
  ∀ most, cs.length < most → Statement.readLines? most cs = some statements

namespace Tells

variable {cs rest : List Char} {s : Statement} {statements : List Statement}

/-- All of the lines are read if no byte order mark stands in front of them. -/
theorem readAll?_eq (h : Tells cs statements) (hmark : ∀ c ∈ cs.head?, c.toNat ≠ 0xFEFF) :
    Statement.readAll? cs = some statements := by
  cases cs with
  | nil => exact h _ (Nat.lt_succ_self _)
  | cons c cs =>
    rw [Statement.readAll?, if_neg (hmark c rfl)]
    exact h _ (Nat.lt_succ_self _)

theorem nil : Tells [] [] := by
  intro most hmost
  obtain ⟨most, rfl⟩ := Nat.exists_eq_add_one_of_ne_zero (Nat.ne_zero_of_lt hmost)
  rfl

/-- An empty line says nothing. -/
theorem blank (h : Tells rest statements) : Tells ('\n' :: rest) statements := by
  intro most hmost
  obtain ⟨most, rfl⟩ := Nat.exists_eq_add_one_of_ne_zero (Nat.ne_zero_of_lt hmost)
  exact h most (Nat.lt_of_succ_lt_succ hmost)

/-- A line that says something, and the lines behind it. -/
theorem cons {c : Char} (hc : c ∉ [' ', '\t', '#', '\n', '\r'])
    (hread : Statement.read? (c :: cs) = some (s, rest)) (hrest : rest.length < (c :: cs).length)
    (h : Tells rest statements) : Tells (c :: cs) (s :: statements) := by
  intro most hmost
  obtain ⟨most, rfl⟩ := Nat.exists_eq_add_one_of_ne_zero (Nat.ne_zero_of_lt hmost)
  simp only [List.mem_cons, List.not_mem_nil, or_false, not_or] at hc
  obtain ⟨hspace, htab, hcomment, hline, hreturn⟩ := hc
  have hblank := not_isSpace_of_ne hspace htab
  have hmore := h most (by omega)
  rw [Statement.readLines?, skipBlanks, List.dropWhile_cons_of_neg hblank]
  split
  · rename_i heq
    cases heq
  · rename_i heq
    exact absurd (List.cons.inj heq).1 hcomment
  · rename_i heq
    exact absurd (List.cons.inj heq).1 hline
  · rename_i heq
    exact absurd (List.cons.inj heq).1 hreturn
  · rw [hread, Option.bind_eq_bind, Option.bind_some]
    dsimp only
    rw [hmore]
    rfl

/-- A header, and the lines behind it. -/
theorem header {key : String} (hkey : IsBare key) (h : Tells rest statements) :
    Tells ('[' :: key.toList ++ "]\n".toList ++ rest) (.table [key] :: statements) := by
  refine cons (by decide) (Statement.read?_header hkey rest) ?_ h
  simp only [List.append_eq, List.length_cons, List.length_append]
  omega

/-- A binding, and the lines behind it. -/
theorem binding {key : String} {v : Literal} {line : List Char} (hkey : IsBare key)
    (hline : Section.writeBinding key v = .ok line) (h : Tells rest statements) :
    Tells (line ++ rest) (.binding [key] v.value :: statements) := by
  have hread := Statement.read?_binding hkey hline rest
  obtain ⟨c, cs, hcs, hc⟩ := hkey.exists_eq
  obtain ⟨more, rfl⟩ : ∃ more, line = c :: more := by
    obtain ⟨text, -, hwritten⟩ := Sequence.bind_eq_ok_iff.1 hline
    cases hwritten
    exact ⟨cs ++ " = ".toList ++ text ++ ['\n'], by rw [hcs]; rfl⟩
  refine cons (fun hmem => ?_) hread ?_ h
  · simp only [List.mem_cons, List.not_mem_nil, or_false] at hmem
    rcases hmem with rfl | rfl | rfl | rfl | rfl <;> cases hc
  · simp only [List.append_eq, List.length_cons, List.length_append]
    omega

/-- The lines of bindings. -/
theorem bindings {bs : List (String × Literal)} {lines : List (List Char)}
    (hkeys : ∀ key ∈ bs.map Prod.fst, IsBare key)
    (hlines : List.Forall₂ (fun b line => Section.writeBinding b.1 b.2 = .ok line) bs lines)
    (h : Tells rest statements) : Tells (lines.flatten ++ rest)
      ((bs.map fun (key, v) => .binding [key] v.value) ++ statements) := by
  induction hlines with
  | nil => exact h
  | cons hline _ ih =>
    obtain ⟨hkey, hkeys⟩ := List.forall_mem_cons.1 hkeys
    rw [List.flatten_cons, List.append_assoc]
    exact binding hkey hline (ih hkeys)

/-- The lines of a section. -/
theorem ofSection {s : Section} {text : List Char} (hs : s.Sound) (hwrite : s.write = .ok text)
    (h : Tells rest statements) : Tells (text ++ rest) (s.statements ++ statements) := by
  obtain ⟨lines, hlines, htext⟩ := Sequence.bind_eq_ok_iff.1 hwrite
  cases htext
  rw [List.append_assoc]
  exact header hs.name (bindings hs.keys (Sequence.mapM_eq_ok_iff.1 hlines) h)

/-- The lines of a document of sections, with an empty line between them. -/
theorem ofSections {sections : List Section} {texts : List (List Char)}
    (hsound : ∀ s ∈ sections, s.Sound)
    (htexts : List.Forall₂ (fun s text => Section.write s = .ok text) sections texts) :
    Tells (['\n'].intercalate texts) (sections.flatMap Section.statements) := by
  induction htexts with
  | nil => exact nil
  | @cons s text sections texts hwrite htexts ih =>
    obtain ⟨hs, hsound⟩ := List.forall_mem_cons.1 hsound
    have hmore := ih hsound
    rw [List.flatMap_cons]
    cases htexts with
    | nil =>
      have hone := ofSection hs hwrite nil
      rw [List.append_nil] at hone
      rw [List.intercalate_singleton]
      exact hone
    | cons hwrite' htexts =>
      rw [List.intercalate_cons_of_ne_nil (List.cons_ne_nil _ _), List.append_assoc]
      exact ofSection hs hwrite (blank hmore)

end Tells

/-- The text of sections starts with a bracket, if there are any. -/
theorem head?_intercalate {sections : List Section} {texts : List (List Char)}
    (htexts : List.Forall₂ (fun s text => Section.write s = .ok text) sections texts) :
    ∀ c ∈ (['\n'].intercalate texts).head?, c = '[' := by
  cases htexts with
  | nil => exact fun c hc => nomatch hc
  | @cons s text sections texts hwrite htexts =>
    obtain ⟨lines, -, htext⟩ := Sequence.bind_eq_ok_iff.1 hwrite
    cases htext
    cases texts with
    | nil =>
      rw [List.intercalate_singleton]
      rintro c ⟨⟩
      rfl
    | cons text' texts =>
      rw [List.intercalate_cons_of_ne_nil (List.cons_ne_nil _ _)]
      rintro c ⟨⟩
      rfl

/-! ## Documents -/

theorem lookup_append_singleton {k : String} {v : Value} {entries : Entries}
    (h : k ∉ entries.map Prod.fst) : (entries ++ [(k, v)]).lookup k = some v := by
  rw [List.lookup_append, Keyed.lookup_eq_none_iff.2 h, Option.none_or, List.lookup_cons_self]

namespace Document

variable {entries inner : Entries} {name : String}

/-- A header opens a table behind the others. -/
theorem add?_table {d : Document} (h : name ∉ d.entries.map Prod.fst) :
    d.add? (.table [name]) = some ⟨d.entries ++ [(name, .table .header [])], [name]⟩ := by
  rw [add?, openTable?, enter?, Keyed.lookup_eq_none_iff.2 h, Option.map_some,
    Keyed.bind_of_notMem h]
  rfl

/-- A binding goes into the table that was opened last. -/
theorem add?_binding {key : String} {v : Value} (hname : name ∉ entries.map Prod.fst)
    (hkey : key ∉ inner.map Prod.fst) :
    add? ⟨entries ++ [(name, .table .header inner)], [name]⟩ (.binding [key] v) =
      some ⟨entries ++ [(name, .table .header (inner ++ [(key, v)]))], [name]⟩ := by
  have hdefine : define? v true [key] inner = some (inner ++ [(key, v)]) := by
    rw [define?, Keyed.lookup_eq_none_iff.2 hkey, if_pos (by decide),
      Keyed.bind_of_notMem hkey]
  rw [add?]
  dsimp only
  rw [within?, lookup_append_singleton hname]
  dsimp only
  rw [within?, hdefine, Option.map_some, Keyed.bind_append_cons hname]
  rfl

/-- Bindings go into the table that was opened last, one after the other. -/
theorem foldlM_bindings (inner : Entries) {bs : List (String × Value)}
    (hname : name ∉ entries.map Prod.fst) (hdistinct : ((inner ++ bs).map Prod.fst).Nodup) :
    (bs.map fun (key, v) => Statement.binding [key] v).foldlM add?
        ⟨entries ++ [(name, .table .header inner)], [name]⟩ =
      some ⟨entries ++ [(name, .table .header (inner ++ bs))], [name]⟩ := by
  induction bs generalizing inner with
  | nil => rw [List.append_nil]; rfl
  | cons b bs ih =>
    obtain ⟨key, v⟩ := b
    have hassoc : inner ++ (key, v) :: bs = inner ++ [(key, v)] ++ bs := by
      rw [List.append_assoc, List.singleton_append]
    have hkey : key ∉ inner.map Prod.fst := by
      rw [List.map_append, List.nodup_append] at hdistinct
      exact fun hmem => hdistinct.2.2 key hmem key List.mem_cons_self rfl
    rw [hassoc] at hdistinct ⊢
    rw [List.map_cons, List.foldlM_cons, add?_binding hname hkey]
    exact ih _ hdistinct

/-- A section adds its entry to a document. -/
theorem foldlM_statements {s : Section} {d : Document} (hs : s.Sound)
    (hname : s.name ∉ d.entries.map Prod.fst) :
    s.statements.foldlM add? d = some ⟨d.entries ++ [s.entry], [s.name]⟩ := by
  have hkeys : ((s.bindings.map fun b => (b.1, b.2.value)).map Prod.fst).Nodup := by
    rw [List.map_map]
    exact hs.distinct
  have hfold := foldlM_bindings [] hname hkeys
  rw [List.map_map] at hfold
  rw [Section.statements, List.foldlM_cons, add?_table hname, Option.bind_eq_bind, Option.bind_some]
  exact hfold

/-- Sections add their entries. -/
theorem foldlM_sections {sections : List Section} {d : Document} (hsound : ∀ s ∈ sections, s.Sound)
    (hdistinct : (d.entries.map Prod.fst ++ sections.map Section.name).Nodup) :
    ∃ d', (sections.flatMap Section.statements).foldlM add? d = some d' ∧
      d'.entries = d.entries ++ sections.map Section.entry := by
  induction sections generalizing d with
  | nil => exact ⟨d, rfl, (List.append_nil _).symm⟩
  | cons s sections ih =>
    obtain ⟨hs, hsound⟩ := List.forall_mem_cons.1 hsound
    have hname : s.name ∉ d.entries.map Prod.fst := by
      rw [List.nodup_append] at hdistinct
      exact fun hmem => hdistinct.2.2 _ hmem _ List.mem_cons_self rfl
    have hdistinct' : ((d.entries ++ [s.entry]).map Prod.fst ++ sections.map Section.name).Nodup := by
      rw [List.map_append, List.append_assoc]
      exact hdistinct
    obtain ⟨d', hd', hentries⟩ := ih (d := ⟨d.entries ++ [s.entry], [s.name]⟩) hsound hdistinct'
    refine ⟨d', ?_, ?_⟩
    · rw [List.flatMap_cons, List.foldlM_append, foldlM_statements hs hname]
      exact hd'
    · rw [hentries, List.append_assoc]
      rfl

end Document

/-- **The text of sections is read as their entries.** -/
theorem parse?_writeSections {sections : List Section} {text : String}
    (hsound : ∀ s ∈ sections, s.Sound) (hdistinct : (sections.map Section.name).Nodup)
    (hwrite : writeSections sections = .ok text) :
    parse? text = some (sections.map Section.entry) := by
  obtain ⟨texts, htexts, htext⟩ := Sequence.bind_eq_ok_iff.1 hwrite
  cases htext
  have htells := Tells.ofSections hsound (Sequence.mapM_eq_ok_iff.1 htexts)
  obtain ⟨d, hd, hentries⟩ := Document.foldlM_sections (d := .empty) hsound hdistinct
  have hread := htells.readAll?_eq fun c hc => by
    rw [head?_intercalate (Sequence.mapM_eq_ok_iff.1 htexts) c hc]
    decide
  rw [parse?, String.toList_ofList, hread, Option.bind_eq_bind, Option.bind_some]
  rw [Document.ofStatements?, hd, Option.bind_eq_bind, Option.bind_some, hentries]
  rfl

end Toml

end Apportion
