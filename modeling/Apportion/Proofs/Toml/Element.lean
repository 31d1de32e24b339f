/-
  Keys and values are read as they were before they were written.

  * `IsBare`: keys that need no quotes; `readPath?_bracket`, `readAssigned?_append`: they are read
    in front of a bracket or an equals sign.
  * `readItems?_texts`: texts with commas between them are the items of an array.
  * `Literal.readValue?_of_write`: the text of a value is read as what it writes.
-/
import Apportion.Proofs.Toml.Quoted
import Apportion.Toml.Element

namespace Apportion

namespace Toml

variable {rest : List Char}

theorem not_isSpace_of_ne {c : Char} (hspace : c ≠ ' ') (htab : c ≠ '\t') : ¬ isSpace c := by
  rw [isSpace, Bool.or_eq_true, decide_eq_true_iff, decide_eq_true_iff]
  exact not_or.2 ⟨hspace, htab⟩

/-! ## Keys -/

/-- A key that needs no quotes. -/
structure IsBare (key : String) : Prop where
  ne_nil : key.toList ≠ []
  chars : ∀ c ∈ key.toList, isBare c

instance (key : String) : Decidable (IsBare key) :=
  decidable_of_iff (key.toList ≠ [] ∧ key.toList.all isBare)
    ⟨fun ⟨hne, hchars⟩ => ⟨hne, List.all_eq_true.1 hchars⟩,
      fun h => ⟨h.ne_nil, List.all_eq_true.2 h.chars⟩⟩

namespace IsBare

variable {key : String}

theorem exists_eq (h : IsBare key) : ∃ c cs, key.toList = c :: cs ∧ isBare c := by
  obtain ⟨c, cs, hcs⟩ := List.exists_cons_of_ne_nil h.ne_nil
  exact ⟨c, cs, hcs, h.chars c (hcs ▸ List.mem_cons_self)⟩

/-- A character of a key is none that stands for something else. -/
theorem ne_of_isBare {c d : Char} (hc : Toml.isBare c) (hd : Toml.isBare d = false) : c ≠ d := by
  rintro rfl
  rw [hc] at hd
  cases hd

theorem skipBlanks_append (h : IsBare key) (rest : List Char) :
    skipBlanks (key.toList ++ rest) = key.toList ++ rest := by
  obtain ⟨c, cs, hcs, hc⟩ := h.exists_eq
  have hblank := not_isSpace_of_ne (ne_of_isBare hc (by decide)) (ne_of_isBare hc (by decide))
  rw [hcs, List.cons_append, skipBlanks, List.dropWhile_cons_of_neg hblank]

theorem readKey?_append (h : IsBare key) (hrest : ∀ c ∈ rest.head?, ¬ Toml.isBare c) :
    readKey? (key.toList ++ rest) = some (key, rest) := by
  obtain ⟨c, cs, hcs, hc⟩ := h.exists_eq
  have htake := Text.takeWhile_append_of_head h.chars hrest
  have hdrop := Text.dropWhile_append_of_head h.chars hrest
  unfold readKey?
  split
  · rename_i heq
    rw [hcs] at heq
    exact absurd (List.cons.inj heq).1 (ne_of_isBare hc (by decide))
  · rename_i heq
    rw [hcs] at heq
    exact absurd (List.cons.inj heq).1 (ne_of_isBare hc (by decide))
  · rw [htake, hdrop]
    split
    · rename_i hnil
      exact absurd hnil h.ne_nil
    · rw [String.ofList_toList]

/-- A key is read in front of what is no key and no dot. -/
theorem readPath?_append (h : IsBare key) (hrest : ∀ c ∈ rest.head?, ¬ Toml.isBare c)
    (hdot : ∀ more, skipBlanks rest ≠ '.' :: more) :
    readPath? (key.toList ++ rest) = some ([key], skipBlanks rest) := by
  rw [readPath?, maxDepth, readParts?, h.skipBlanks_append, h.readKey?_append hrest,
    Option.bind_eq_bind, Option.bind_some]
  dsimp only
  split
  · rename_i heq
    exact absurd heq (hdot _)
  · rfl

/-- A key is read in front of a closing bracket. -/
theorem readPath?_bracket (h : IsBare key) (rest : List Char) :
    readPath? (key.toList ++ ']' :: rest) = some ([key], ']' :: rest) := by
  have hskip : skipBlanks (']' :: rest) = ']' :: rest := List.dropWhile_cons_of_neg (by decide)
  rw [h.readPath?_append, hskip]
  · rintro c ⟨⟩
    decide
  · intro more heq
    rw [hskip] at heq
    exact absurd (List.cons.inj heq).1 (by decide)

/-- A key is read in front of an equals sign. -/
theorem readAssigned?_append (h : IsBare key) (hrest : ∀ c ∈ rest.head?, ¬ isSpace c) :
    readAssigned? (key.toList ++ (" = ".toList ++ rest)) = some ([key], rest) := by
  have hskip : skipBlanks (" = ".toList ++ rest) = '=' :: ' ' :: rest := by
    change (' ' :: '=' :: ' ' :: rest).dropWhile isSpace = _
    rw [List.dropWhile_cons_of_pos rfl, List.dropWhile_cons_of_neg (by decide)]
  have hvalue : skipBlanks (' ' :: rest) = rest := by
    rw [skipBlanks, List.dropWhile_cons_of_pos rfl]
    exact @Text.dropWhile_append_of_head isSpace [] rest (List.forall_mem_nil _) hrest
  rw [readAssigned?, h.readPath?_append, hskip]
  · change some ([key], skipBlanks (' ' :: rest)) = _
    rw [hvalue]
  · rintro c ⟨⟩
    decide
  · intro more heq
    rw [hskip] at heq
    exact absurd (List.cons.inj heq).1 (by decide)

end IsBare

/-! ## Texts -/

theorem exists_write_eq (s : String) :
    ∃ quote cs, Quoted.write s = quote :: cs ∧ (quote = '"' ∨ quote = '\'') := by
  rw [Quoted.write]
  cases Quoted.styleFor s.toList with
  | basic | basicLines => exact ⟨'"', _, rfl, Or.inl rfl⟩
  | literal | literalLines => exact ⟨'\'', _, rfl, Or.inr rfl⟩

/-- Between quotes a value is a text. -/
theorem readValueWithin?_text (depth : Nat) (s : String) (hrest : Stops rest) :
    readValueWithin? depth (Quoted.write s ++ rest) = some (.text s, rest) := by
  have hread := Quoted.read?_write s hrest
  obtain ⟨quote, cs, heq, rfl | rfl⟩ := exists_write_eq s <;>
    rw [heq] at hread ⊢ <;> rw [List.cons_append] at hread ⊢ <;>
    rw [readValueWithin?] <;> rw [hread] <;> rfl

/-- What opens neither a table nor an array nor a text is a word. -/
theorem readValueWithin?_word (depth : Nat) {c : Char} {cs : List Char}
    (h : c ∉ ['[', '{', '"', '\'']) : readValueWithin? depth (c :: cs) = Scalar.read? (c :: cs) := by
  simp only [List.mem_cons, List.not_mem_nil, or_false, not_or] at h
  obtain ⟨hbracket, hbrace, hdouble, hsingle⟩ := h
  rw [readValueWithin?.eq_def]
  dsimp only
  split
  · rename_i heq
    exact absurd (List.cons.inj heq).1 hbracket
  · rename_i heq
    exact absurd (List.cons.inj heq).1 hbrace
  · rename_i heq
    exact absurd (List.cons.inj heq).1 hdouble
  · rename_i heq
    exact absurd (List.cons.inj heq).1 hsingle
  · rfl

/-! ## Arrays -/

theorem skipLayout?_of_ne {c : Char} {cs : List Char} (h : c ∉ ['\n', '\r', ' ', '\t', '#']) :
    skipLayout? false (c :: cs) = some (c :: cs) := by
  simp only [List.mem_cons, List.not_mem_nil, or_false, not_or] at h
  obtain ⟨hline, hreturn, hspace, htab, hcomment⟩ := h
  have hblank := not_isSpace_of_ne hspace htab
  rw [skipLayout?.eq_def]
  dsimp only
  rw [if_neg hline, if_neg hreturn, if_neg Bool.false_ne_true, if_neg hblank, if_neg hcomment]

theorem skipLayout?_blank (cs : List Char) : skipLayout? false (' ' :: cs) = skipLayout? false cs := by
  rw [skipLayout?.eq_def]
  dsimp only
  rw [if_neg (by decide), if_neg (by decide), if_neg Bool.false_ne_true, if_pos (by decide)]

/-- The text of items with commas between them. -/
def itemsText (ss : List String) : List Char := ", ".toList.intercalate (ss.map Quoted.write)

theorem itemsText_cons_cons (s t : String) (ss : List String) :
    itemsText (s :: t :: ss) = Quoted.write s ++ ',' :: ' ' :: itemsText (t :: ss) := by
  have hne : (t :: ss).map Quoted.write ≠ [] := List.cons_ne_nil _ _
  rw [itemsText, List.map_cons, List.intercalate_cons_of_ne_nil hne, List.append_assoc]
  rfl

theorem length_le_itemsText (ss : List String) : ss.length ≤ (itemsText ss).length := by
  induction ss with
  | nil => exact Nat.zero_le _
  | cons s ss ih =>
    obtain ⟨quote, cs, heq, -⟩ := exists_write_eq s
    cases ss with
    | nil =>
      rw [itemsText, List.map_singleton, List.intercalate_singleton, heq]
      simp
    | cons t ss =>
      rw [itemsText_cons_cons, heq]
      simp only [List.length_cons, List.length_append] at ih ⊢
      omega

section
variable {item? : Reader Value} {most : Nat} {cs : List Char}

theorem readItems?_blank : readItems? item? most (' ' :: cs) = readItems? item? most cs := by
  cases most with
  | zero => rfl
  | succ most => rw [readItems?, readItems?, skipLayout?_blank]

/-- An item with a bracket behind it is the last one. -/
theorem readItems?_last {v : Value} (hskip : skipLayout? false cs = some cs)
    (hne : ∀ more, cs ≠ ']' :: more) (hitem : item? cs = some (v, ']' :: rest)) :
    readItems? item? (most + 1) cs = some ([v], rest) := by
  rw [readItems?, hskip, Option.bind_eq_bind, Option.bind_some]
  split
  · exact absurd rfl (hne _)
  · rw [hitem, Option.bind_eq_bind, Option.bind_some]
    dsimp only
    rw [skipLayout?_of_ne (by decide)]
    rfl

/-- An item with a comma behind it is not. -/
theorem readItems?_more {v : Value} (hskip : skipLayout? false cs = some cs)
    (hne : ∀ more, cs ≠ ']' :: more) (hitem : item? cs = some (v, ',' :: rest)) :
    readItems? item? (most + 1) cs =
      (readItems? item? most rest).map fun (vs, cs) => (v :: vs, cs) := by
  rw [readItems?, hskip, Option.bind_eq_bind, Option.bind_some]
  split
  · exact absurd rfl (hne _)
  · rw [hitem, Option.bind_eq_bind, Option.bind_some]
    dsimp only
    rw [skipLayout?_of_ne (by decide)]
    change (readItems? item? most rest).bind (fun (vs, cs) => some (v :: vs, cs)) = _
    cases readItems? item? most rest <;> rfl

/-- **Texts with commas between them are the items of an array.** -/
theorem readItems?_texts {ss : List String}
    (hitem : ∀ s rest, Stops rest → item? (Quoted.write s ++ rest) = some (.text s, rest))
    (hmost : ss.length < most) (rest : List Char) :
    readItems? item? most (itemsText ss ++ ']' :: rest) = some (ss.map .text, rest) := by
  induction ss generalizing most with
  | nil =>
    obtain ⟨most, rfl⟩ := Nat.exists_eq_add_one_of_ne_zero (Nat.ne_of_gt hmost)
    change readItems? item? (most + 1) (']' :: rest) = _
    rw [readItems?, skipLayout?_of_ne (by decide)]
    rfl
  | cons s ss ih =>
    obtain ⟨most, rfl⟩ := Nat.exists_eq_add_one_of_ne_zero (Nat.ne_zero_of_lt hmost)
    have hskip : ∀ more, skipLayout? false (Quoted.write s ++ more) = some (Quoted.write s ++ more) ∧
        ∀ more', Quoted.write s ++ more ≠ ']' :: more' := by
      intro more
      obtain ⟨quote, cs, heq, rfl | rfl⟩ := exists_write_eq s <;> rw [heq] <;>
        exact ⟨skipLayout?_of_ne (by decide), fun more' h => absurd (List.cons.inj h).1 (by decide)⟩
    cases ss with
    | nil =>
      have htext : itemsText [s] ++ ']' :: rest = Quoted.write s ++ ']' :: rest := by
        rw [itemsText, List.map_singleton, List.intercalate_singleton]
      rw [htext, readItems?_last (hskip _).1 (hskip _).2 (hitem s _ fun c => ?_)]
      · rfl
      · rintro ⟨⟩
        decide
    | cons t ss =>
      have htext : itemsText (s :: t :: ss) ++ ']' :: rest =
          Quoted.write s ++ ',' :: ' ' :: (itemsText (t :: ss) ++ ']' :: rest) := by
        rw [itemsText_cons_cons, List.append_assoc]
        rfl
      rw [htext, readItems?_more (hskip _).1 (hskip _).2 (hitem s _ fun c => ?_), readItems?_blank,
        ih (by rw [List.length_cons] at hmost; omega)]
      · rfl
      · rintro ⟨⟩
        decide

end

/-! ## Values -/

/-- A value that is a word is read as what the word stands for. -/
theorem readValue?_word {c : Char} {cs : List Char} (h : Scalar.isWordChar c) :
    readValue? (c :: cs) = Scalar.read? (c :: cs) := by
  refine readValueWithin?_word maxDepth fun hmem => ?_
  simp only [List.mem_cons, List.not_mem_nil, or_false] at hmem
  rcases hmem with rfl | rfl | rfl | rfl <;> cases h

theorem readValue?_texts (ss : List String) (rest : List Char) :
    readValue? ('[' :: itemsText ss ++ ']' :: rest) = some (.array (ss.map .text), rest) := by
  have hlength : ss.length < (itemsText ss ++ ']' :: rest).length + 1 := by
    have hitems := length_le_itemsText ss
    rw [List.length_append]
    omega
  rw [List.cons_append, readValue?, maxDepth, readValueWithin?]
  rw [readItems?_texts (fun s rest => readValueWithin?_text _ s) hlength]
  rfl

namespace Literal

variable {v : Literal} {text : List Char}

theorem exists_toString_eq (n : Nat) :
    ∃ c cs, (toString n).toList = c :: cs ∧ Scalar.isWordChar c := by
  obtain ⟨c, cs, hcs⟩ := List.exists_cons_of_ne_nil (Nat.toDigits_ne_nil (n := n) (b := 10))
  rw [← Decimal.toList_toString] at hcs
  exact ⟨c, cs, hcs, (Scalar.isNumber_toString n).isWordChar c (hcs ▸ List.mem_cons_self)⟩

theorem exists_writeReal_eq (x : Float) : ∃ c cs, writeReal x = c :: cs ∧ Scalar.isWordChar c := by
  by_cases hnan : x.isNaN
  · exact ⟨'n', ['a', 'n'], by rw [writeReal, if_pos hnan]; rfl, rfl⟩
  · rw [Bool.not_eq_true] at hnan
    by_cases hinf : x.isInf
    · rw [writeReal_of_isInf hinf]
      cases decide (2 ^ 63 ≤ x.toBits.toNat)
      · exact ⟨'i', ['n', 'f'], rfl, rfl⟩
      · exact ⟨'-', ['i', 'n', 'f'], rfl, rfl⟩
    · rw [Bool.not_eq_true] at hinf
      obtain ⟨p, negative, htext, -⟩ := exists_pointed_writeReal hnan hinf
      have hchars := (Scalar.isNumber_text p negative).isWordChar
      rw [← htext] at hchars
      have hne : writeReal x ≠ [] := by
        rw [htext]
        exact fun hnil => List.ne_nil_of_mem p.point_mem_text (List.append_eq_nil_iff.1 hnil).2
      obtain ⟨c, cs, hcs⟩ := List.exists_cons_of_ne_nil hne
      exact ⟨c, cs, hcs, hchars c (hcs ▸ List.mem_cons_self)⟩

theorem not_isSpace_of_isWordChar {c : Char} (h : Scalar.isWordChar c) : ¬ isSpace c := by
  refine not_isSpace_of_ne ?_ ?_ <;> rintro rfl <;> cases h

/-- The text of a value starts with no blank. -/
theorem exists_of_write (h : v.write = .ok text) : ∃ c cs, text = c :: cs ∧ ¬ isSpace c := by
  cases v with
  | text s =>
    cases h
    obtain ⟨quote, cs, heq, rfl | rfl⟩ := exists_write_eq s <;> exact ⟨_, cs, heq, by decide⟩
  | natural n =>
    rw [write] at h
    split at h <;> cases h
    obtain ⟨c, cs, heq, hc⟩ := exists_toString_eq n
    exact ⟨c, cs, heq, not_isSpace_of_isWordChar hc⟩
  | real x =>
    cases h
    obtain ⟨c, cs, heq, hc⟩ := exists_writeReal_eq x
    exact ⟨c, cs, heq, not_isSpace_of_isWordChar hc⟩
  | texts ss =>
    cases h
    exact ⟨'[', _, rfl, by decide⟩

/-- **The text of a value is read as what it writes.** -/
theorem readValue?_of_write (h : v.write = .ok text) (hrest : Stops rest) :
    readValue? (text ++ rest) = some (v.value, rest) := by
  cases v with
  | text s =>
    cases h
    exact readValueWithin?_text maxDepth s hrest
  | natural n =>
    rw [write] at h
    split at h
    · rename_i hn
      cases h
      obtain ⟨c, cs, heq, hc⟩ := exists_toString_eq n
      rw [heq, List.cons_append, readValue?_word hc, ← List.cons_append, ← heq]
      exact Scalar.read?_natural hn hrest
    · cases h
  | real x =>
    cases h
    obtain ⟨c, cs, heq, hc⟩ := exists_writeReal_eq x
    rw [heq, List.cons_append, readValue?_word hc, ← List.cons_append, ← heq]
    exact read?_writeReal x hrest
  | texts ss =>
    cases h
    rw [List.append_assoc]
    exact readValue?_texts ss rest

end Literal

end Toml

end Apportion
