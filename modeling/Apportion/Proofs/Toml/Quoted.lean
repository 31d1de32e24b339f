/-
  Texts between quotes are read as they were before.

  * `Escapes`: what an escape stands for; `escapes_control`: that of a control character.
  * `readBasic?_escape`, `readLiteral?_append`, `readLines?_escape`, `readLiteralLines?_append`: what is
    written in each of the styles, up to the quotes behind it.
  * `Suits`: which texts a style can hold; `suits_styleFor`: the style chosen can hold the text.
  * `read?_write`: what is written is read, and what follows is left.
-/
import Apportion.Proofs.Toml.Scalar
import Apportion.Toml.Quoted

namespace Apportion

namespace Toml

namespace Quoted

variable {c : Char} {cs done rest sequence : List Char} {run : Nat}

/-! ## Escapes -/

/-- What an escape stands for. -/
inductive Escapes : List Char → Char → Prop
  | letter {l c} : escaped? l = some c → Escapes ['\\', l] c
  | code {a b d e c} : codePoint? 0 [a, b, d, e] = some c → Escapes ['\\', 'u', a, b, d, e] c

theorem codePoint?_hexDigits : ∀ n < 128,
    codePoint? 0 ['0', '0', hexDigit (n / 16), hexDigit (n % 16)] = some (Char.ofNat n) := by
  decide +kernel

/-- The escape of a control character stands for it. -/
theorem escapes_control (h : c.toNat ≤ 0x1F ∨ c.toNat = 0x7F) : Escapes (escapeControl c) c := by
  unfold escapeControl
  split_ifs with hb ht hn hf hr
  · subst hb; exact .letter rfl
  · subst ht; exact .letter rfl
  · subst hn; exact .letter rfl
  · subst hf; exact .letter rfl
  · subst hr; exact .letter rfl
  · refine .code ?_
    rw [codePoint?_hexDigits _ (by omega), Char.ofNat_toNat]

theorem escaped?_ne {l : Char} (h : escaped? l = some c) :
    l ≠ 'u' ∧ l ≠ 'U' ∧ isSpace l = false ∧ l ≠ '\n' ∧ l ≠ '\r' := by
  unfold escaped? at h
  split at h <;> first | decide | cases h

/-- An escape is read as what it stands for. -/
theorem Escapes.readBasic? (h : Escapes sequence c) :
    readBasic? done (sequence ++ rest) = readBasic? (c :: done) rest := by
  cases h with
  | @letter l _ hl =>
    obtain ⟨hu, hU, -⟩ := escaped?_ne hl
    change Quoted.readBasic? done ('\\' :: l :: rest) = _
    rw [Quoted.readBasic?, if_neg (by decide), if_pos rfl, hl]
    · exact fun _ _ _ _ _ heq _ => hu heq
    · exact fun _ _ _ _ _ _ _ _ _ heq _ => hU heq
  | @code a b d e _ hcode =>
    change Quoted.readBasic? done ('\\' :: 'u' :: a :: b :: d :: e :: rest) = _
    rw [Quoted.readBasic?, if_neg (by decide), if_pos rfl, hcode]

/-- A letter is not the end of a line. -/
theorem newline?_letter {l : Char} (hspace : isSpace l = false) (hn : l ≠ '\n') (hr : l ≠ '\r') :
    newline? (skipBlanks (l :: rest)) = none := by
  rw [skipBlanks, List.dropWhile_cons_of_neg (Bool.eq_false_iff.1 hspace)]
  unfold newline?
  split
  · rename_i heq
    exact absurd (List.cons.inj heq).1 hn
  · rename_i heq
    exact absurd (List.cons.inj heq).1 hr
  · rfl

/-- An escape is read over several lines as well. -/
theorem Escapes.readLines? (h : Escapes sequence c) :
    readLines? false done (sequence ++ rest) = readLines? false (c :: done) rest := by
  cases h with
  | @letter l _ hl =>
    obtain ⟨hu, hU, hspace, hn, hr⟩ := escaped?_ne hl
    change Quoted.readLines? false done ('\\' :: l :: rest) = _
    rw [Quoted.readLines?.eq_def]
    dsimp only
    rw [if_neg (by decide), if_neg (by decide), if_neg (by decide), if_neg (by decide), if_pos rfl,
      newline?_letter hspace hn hr, if_neg (by decide)]
    split
    · rename_i heq
      exact absurd (List.cons.inj heq).1 hu
    · rename_i heq
      exact absurd (List.cons.inj heq).1 hU
    · rename_i heq
      cases heq
      rw [hl]
    · rename_i heq
      cases heq
  | @code a b d e _ hcode =>
    change Quoted.readLines? false done ('\\' :: 'u' :: a :: b :: d :: e :: rest) = _
    rw [Quoted.readLines?.eq_def]
    dsimp only
    rw [if_neg (by decide), if_neg (by decide), if_neg (by decide), if_neg (by decide), if_pos rfl,
      newline?_letter (by decide) (by decide) (by decide), if_neg (by decide)]
    simp only [hcode]

/-! ## Characters -/

/-- Characters that need no escape. -/
theorem isBasic_of_not_control (h : ¬ (c.toNat ≤ 0x1F ∨ c.toNat = 0x7F)) (hquote : c ≠ '"')
    (hbackslash : c ≠ '\\') : isBasic c := by
  have hquote' : c.toNat ≠ 0x22 := fun heq => hquote (Char.toNat_inj.1 heq)
  have hbackslash' : c.toNat ≠ 0x5C := fun heq => hbackslash (Char.toNat_inj.1 heq)
  have hcases : c.toNat = 0x20 ∨ c.toNat = 0x21 ∨ (0x23 ≤ c.toNat ∧ c.toNat ≤ 0x5B) ∨
      (0x5D ≤ c.toNat ∧ c.toNat ≤ 0x7E) ∨ 0x80 ≤ c.toNat := by omega
  rcases hcases with hspace | h' | h' | h' | h'
  · rw [Char.toNat_inj.1 (show c.toNat = ' '.toNat from hspace)]
    rfl
  all_goals simp [isBasic, isForeign, h']

/-! ## Texts with escapes -/

/-- What is written for a character that is no quote, or none that may stay, and no line end that
    may. -/
theorem escape_cons (lines : Bool) (quotes run : Nat) (cs : List Char)
    (hquote : c = '"' → ¬ run < quotes) (hline : c = '\n' → lines = false) :
    ∃ sequence, escape lines quotes run (c :: cs) = sequence ++ escape lines quotes 0 cs ∧
      (Escapes sequence c ∨ sequence = [c] ∧ isBasic c ∧ c ≠ '"' ∧ c ≠ '\\') := by
  rw [escape]
  split_ifs with h₁ h₂ h₃ h₄ h₅
  · exact absurd h₂ (hquote h₁)
  · subst h₁
    exact ⟨['\\', '"'], rfl, Or.inl (.letter rfl)⟩
  · subst h₃
    exact ⟨['\\', '\\'], rfl, Or.inl (.letter rfl)⟩
  · rw [Bool.and_eq_true, decide_eq_true_iff] at h₄
    rw [hline h₄.1] at h₄
    cases h₄.2
  · rw [Bool.or_eq_true, decide_eq_true_iff, decide_eq_true_iff] at h₅
    exact ⟨escapeControl c, rfl, Or.inl (escapes_control h₅)⟩
  · rw [Bool.or_eq_true, decide_eq_true_iff, decide_eq_true_iff] at h₅
    exact ⟨[c], rfl, Or.inr ⟨rfl, isBasic_of_not_control h₅ h₁ h₃, h₁, h₃⟩⟩

theorem readBasic?_quote : readBasic? done ('"' :: rest) = some (done.reverse, rest) := by
  rw [readBasic?.eq_def]
  exact if_pos rfl

theorem readBasic?_char (hbasic : isBasic c) (hquote : c ≠ '"') (hbackslash : c ≠ '\\') :
    readBasic? done (c :: rest) = readBasic? (c :: done) rest := by
  rw [readBasic?.eq_def]
  dsimp only
  rw [if_neg hquote, if_neg hbackslash, if_pos hbasic]

/-- **What is written between double quotes is read.** -/
theorem readBasic?_escape (run : Nat) (done cs rest : List Char) :
    readBasic? done (escape false 0 run cs ++ '"' :: rest) = some (done.reverse ++ cs, rest) := by
  induction cs generalizing run done with
  | nil => rw [escape, List.nil_append, readBasic?_quote, List.append_nil]
  | cons c cs ih =>
    have hnext : readBasic? (c :: done) (escape false 0 0 cs ++ '"' :: rest) =
        some (done.reverse ++ c :: cs, rest) := by
      rw [ih, List.reverse_cons, List.append_assoc, List.singleton_append]
    obtain ⟨sequence, heq, hescape | ⟨rfl, hbasic, hquote, hbackslash⟩⟩ :=
      escape_cons false 0 run cs (fun _ => Nat.not_lt_zero run) (fun _ => rfl)
    · rw [heq, List.append_assoc, hescape.readBasic?, hnext]
    · rw [heq, List.append_assoc, List.singleton_append, readBasic?_char hbasic hquote hbackslash,
        hnext]

/-- **What is written between single quotes is read.** -/
theorem readLiteral?_append (h : ∀ c ∈ cs, isLiteral c) (done rest : List Char) :
    readLiteral? done (cs ++ '\'' :: rest) = some (done.reverse ++ cs, rest) := by
  induction cs generalizing done with
  | nil => rw [List.nil_append, readLiteral?, if_pos rfl, List.append_nil]
  | cons c cs ih =>
    obtain ⟨hc, hcs⟩ := List.forall_mem_cons.1 h
    have hquote : c ≠ '\'' := by
      rintro rfl
      cases hc
    rw [List.cons_append, readLiteral?, if_neg hquote, if_pos hc, ih hcs, List.reverse_cons,
      List.append_assoc, List.singleton_append]

/-! ## Texts over several lines -/

/-- Up to two quotes in front of the closing ones are part of the text. -/
theorem close_replicate {quote : Char} {n : Nat} (hn : n ≤ 2) (hrest : ∀ c ∈ rest.head?, c ≠ quote)
    (done : List Char) : close quote done (List.replicate n quote ++ rest) =
      (done.reverse ++ List.replicate n quote, rest) := by
  match n, hn with
  | 0, _ =>
    match rest, hrest with
    | [], _ => simp [close]
    | [a], hrest => simp [close, hrest a rfl]
    | a :: b :: rest, hrest => simp [close, hrest a rfl]
  | 1, _ =>
    match rest, hrest with
    | [], _ => simp [close]
    | a :: rest, hrest => simp [close, hrest a rfl]
  | 2, _ => simp [close]

theorem readLines?_char (hbasic : isBasic c) (hquote : c ≠ '"') (hbackslash : c ≠ '\\') :
    readLines? false done (c :: rest) = readLines? false (c :: done) rest := by
  have hreturn : c ≠ '\r' := by
    rintro rfl
    cases hbasic
  have hline : c ≠ '\n' := by
    rintro rfl
    cases hbasic
  rw [readLines?.eq_def]
  dsimp only
  rw [Bool.false_and, if_neg Bool.false_ne_true, if_neg hreturn, if_neg hline, if_neg hquote,
    if_neg hbackslash, if_pos hbasic]

theorem readLines?_line :
    readLines? false done ('\n' :: rest) = readLines? false ('\n' :: done) rest := by
  rw [readLines?.eq_def]
  dsimp only
  rw [Bool.false_and, if_neg Bool.false_ne_true, if_neg (by decide), if_pos rfl]

/-- A quote that two more do not follow is part of the text. -/
theorem readLines?_quote (h : ∀ more, rest ≠ '"' :: '"' :: more) :
    readLines? false done ('"' :: rest) = readLines? false ('"' :: done) rest := by
  rw [readLines?.eq_def]
  dsimp only
  rw [Bool.false_and, if_neg Bool.false_ne_true, if_neg (by decide), if_neg (by decide), if_pos rfl]
  split
  · exact absurd rfl (h _)
  · rfl

theorem readLines?_close : readLines? false done ('"' :: '"' :: '"' :: rest) =
    some (close '"' done rest) := by
  rw [readLines?.eq_def]
  dsimp only
  rw [Bool.false_and, if_neg Bool.false_ne_true, if_neg (by decide), if_neg (by decide), if_pos rfl]
  rfl

theorem escape_quote {lines : Bool} {quotes : Nat} (h : run < quotes) (cs : List Char) :
    escape lines quotes run ('"' :: cs) = '"' :: escape lines quotes (run + 1) cs := by
  rw [escape, if_pos rfl, if_pos h]

theorem escape_line (quotes run : Nat) (cs : List Char) :
    escape true quotes run ('\n' :: cs) = '\n' :: escape true quotes 0 cs := by
  rw [escape, if_neg (by decide), if_neg (by decide), if_pos (by decide)]

/-- The first character that is written is a quote or a line end only for one. -/
theorem exists_escape_eq (lines : Bool) (quotes run : Nat) (c : Char) (cs : List Char) :
    ∃ d ds, escape lines quotes run (c :: cs) = d :: ds ∧ (d = '"' → c = '"' ∧ run < quotes) ∧
      (d = '\n' → c = '\n') ∧ d ≠ '\r' := by
  by_cases hquote : c = '"' ∧ run < quotes
  · obtain ⟨rfl, hrun⟩ := hquote
    exact ⟨_, _, escape_quote hrun cs, fun _ => ⟨rfl, hrun⟩, fun h => h, by decide⟩
  · by_cases hline : c = '\n' ∧ lines = true
    · obtain ⟨rfl, rfl⟩ := hline
      exact ⟨_, _, escape_line quotes run cs, fun h => absurd h (by decide), fun h => h, by decide⟩
    · obtain ⟨sequence, heq, hescape | ⟨rfl, hbasic, hc, -⟩⟩ := escape_cons lines quotes run cs
        (fun h hrun => hquote ⟨h, hrun⟩) (fun h => Bool.eq_false_iff.2 fun hlines => hline ⟨h, hlines⟩)
      · rw [heq]
        cases hescape <;> exact ⟨'\\', _, rfl, fun h => absurd h (by decide),
          fun h => absurd h (by decide), by decide⟩
      · refine ⟨c, _, heq, fun h => absurd h hc, fun h => h, ?_⟩
        rintro rfl
        cases hbasic

/-- Two quotes stand behind a third one only at the end of the text. -/
theorem escape_append_ne (hrun : run < 2) (hone : cs ≠ []) (htwo : ¬ (cs = ['"'] ∧ run = 0))
    (more : List Char) :
    escape true 2 (run + 1) cs ++ '"' :: '"' :: '"' :: rest ≠ '"' :: '"' :: more := by
  obtain ⟨c, cs, rfl⟩ := List.exists_cons_of_ne_nil hone
  obtain ⟨d, ds, heq, hd, -⟩ := exists_escape_eq true 2 (run + 1) c cs
  rw [heq]
  intro hquotes
  obtain ⟨rfl, hrest⟩ := List.cons.inj hquotes
  obtain ⟨rfl, hlt⟩ := hd rfl
  rw [escape_quote hlt] at heq
  obtain ⟨-, rfl⟩ := List.cons.inj heq
  have hmore : cs ≠ [] := by
    rintro rfl
    exact htwo ⟨rfl, by omega⟩
  obtain ⟨e, es, rfl⟩ := List.exists_cons_of_ne_nil hmore
  obtain ⟨f, fs, heq', hf, -⟩ := exists_escape_eq true 2 (run + 1 + 1) e es
  rw [heq'] at hrest
  have hlt' := (hf (List.cons.inj hrest).1).2
  omega

/-- **What is written between triple double quotes is read.** -/
theorem readLines?_escape (hrest : ∀ c ∈ rest.head?, c ≠ '"') (run : Nat) (done cs : List Char) :
    readLines? false done (escape true 2 run cs ++ ('"' :: '"' :: '"' :: rest)) =
      some (done.reverse ++ cs, rest) := by
  induction cs generalizing run done with
  | nil =>
    exact readLines?_close.trans (congrArg some (close_replicate (n := 0) (by decide) hrest done))
  | cons c cs ih =>
    have hnext : ∀ run, readLines? false (c :: done)
        (escape true 2 run cs ++ '"' :: '"' :: '"' :: rest) = some (done.reverse ++ c :: cs, rest) := by
      intro run
      rw [ih, List.reverse_cons, List.append_assoc, List.singleton_append]
    by_cases hquote : c = '"' ∧ run < 2
    · obtain ⟨rfl, hrun⟩ := hquote
      rw [escape_quote hrun]
      by_cases hone : cs = []
      · subst hone
        exact readLines?_close.trans
          (congrArg some (close_replicate (n := 1) (by decide) hrest done))
      by_cases htwo : cs = ['"'] ∧ run = 0
      · obtain ⟨rfl, rfl⟩ := htwo
        exact readLines?_close.trans
          (congrArg some (close_replicate (n := 2) (by decide) hrest done))
      · rw [List.cons_append, readLines?_quote (escape_append_ne hrun hone htwo), hnext]
    · by_cases hline : c = '\n'
      · subst hline
        rw [escape_line, List.cons_append, readLines?_line, hnext]
      · obtain ⟨sequence, heq, hescape | ⟨rfl, hbasic, hc, hbackslash⟩⟩ := escape_cons true 2 run cs
          (fun h hrun => hquote ⟨h, hrun⟩) (fun h => absurd h hline)
        · rw [heq, List.append_assoc, hescape.readLines?, hnext]
        · rw [heq, List.append_assoc, List.singleton_append, readLines?_char hbasic hc hbackslash,
            hnext]

/-! ## Literal texts over several lines -/

theorem readLiteralLines?_char (h : isLiteral c) :
    readLiteralLines? done (c :: rest) = readLiteralLines? (c :: done) rest := by
  have hne : ∀ d, isLiteral d = false → c ≠ d := by
    rintro d hd rfl
    rw [h] at hd
    cases hd
  rw [readLiteralLines?.eq_def]
  dsimp only
  rw [if_neg (hne _ (by decide)), if_neg (hne _ (by decide)), if_neg (hne _ (by decide)), if_pos h]

theorem readLiteralLines?_line :
    readLiteralLines? done ('\n' :: rest) = readLiteralLines? ('\n' :: done) rest := by
  rw [readLiteralLines?.eq_def]
  dsimp only
  rw [if_neg (by decide), if_pos rfl]

theorem readLiteralLines?_quote (h : ∀ more, rest ≠ '\'' :: '\'' :: more) :
    readLiteralLines? done ('\'' :: rest) = readLiteralLines? ('\'' :: done) rest := by
  rw [readLiteralLines?.eq_def]
  dsimp only
  rw [if_neg (by decide), if_neg (by decide), if_pos rfl]
  split
  · exact absurd rfl (h _)
  · rfl

theorem readLiteralLines?_close : readLiteralLines? done ('\'' :: '\'' :: '\'' :: rest) =
    some (close '\'' done rest) := by
  rw [readLiteralLines?.eq_def]
  dsimp only
  rw [if_neg (by decide), if_neg (by decide), if_pos rfl]
  rfl

/-- **What is written between triple single quotes is read.** -/
theorem readLiteralLines?_append (hrest : ∀ c ∈ rest.head?, c ≠ '\'')
    (h : ∀ c ∈ cs, isLiteral c ∨ c = '\n' ∨ c = '\'')
    (hthree : ¬ List.replicate 3 '\'' <:+: cs) (done : List Char) :
    readLiteralLines? done (cs ++ '\'' :: '\'' :: '\'' :: rest) = some (done.reverse ++ cs, rest) := by
  induction cs generalizing done with
  | nil =>
    exact readLiteralLines?_close.trans
      (congrArg some (close_replicate (n := 0) (by decide) hrest done))
  | cons c cs ih =>
    obtain ⟨hc, hcs⟩ := List.forall_mem_cons.1 h
    have hnext : readLiteralLines? (c :: done) (cs ++ '\'' :: '\'' :: '\'' :: rest) =
        some (done.reverse ++ c :: cs, rest) := by
      rw [ih hcs fun hinfix => hthree (List.infix_cons hinfix), List.reverse_cons, List.append_assoc,
        List.singleton_append]
    rcases hc with hliteral | rfl | rfl
    · rw [List.cons_append, readLiteralLines?_char hliteral, hnext]
    · rw [List.cons_append, readLiteralLines?_line, hnext]
    · by_cases hone : cs = []
      · subst hone
        exact readLiteralLines?_close.trans
          (congrArg some (close_replicate (n := 1) (by decide) hrest done))
      by_cases htwo : cs = ['\'']
      · subst htwo
        exact readLiteralLines?_close.trans
          (congrArg some (close_replicate (n := 2) (by decide) hrest done))
      · rw [List.cons_append, readLiteralLines?_quote ?_, hnext]
        intro more hquotes
        obtain ⟨d, ds, rfl⟩ := List.exists_cons_of_ne_nil hone
        obtain ⟨rfl, hsecond⟩ := List.cons.inj hquotes
        obtain ⟨e, es, rfl⟩ := List.exists_cons_of_ne_nil fun hnil => htwo (congrArg _ hnil)
        obtain ⟨rfl, -⟩ := List.cons.inj hsecond
        exact hthree ⟨[], es, rfl⟩

/-! ## Styles -/

theorem run_le_longestRun (c : Char) (run : Nat) (cs : List Char) : run ≤ longestRun c run cs := by
  induction cs generalizing run with
  | nil => exact Nat.le_refl run
  | cons d cs ih =>
    rw [longestRun]
    split
    · exact (Nat.le_succ run).trans (ih (run + 1))
    · exact Nat.le_max_left ..

theorem add_le_longestRun {n : Nat} (h : List.replicate n c <+: cs) (run : Nat) :
    run + n ≤ longestRun c run cs := by
  induction n generalizing run cs with
  | zero => exact run_le_longestRun c run cs
  | succ n ih =>
    obtain ⟨more, rfl⟩ := h
    rw [List.replicate_succ, List.cons_append, longestRun, if_pos rfl]
    have hmore := ih (List.prefix_append _ more) (run + 1)
    omega

/-- No run is longer than the longest. -/
theorem le_longestRun {n : Nat} (h : List.replicate n c <:+: cs) (run : Nat) :
    n ≤ longestRun c run cs := by
  induction cs generalizing run with
  | nil =>
    rw [List.infix_nil, List.replicate_eq_nil_iff] at h
    exact h ▸ Nat.zero_le _
  | cons d cs ih =>
    rcases List.infix_cons_iff.1 h with hprefix | hinfix
    · exact (Nat.le_add_left n run).trans (add_le_longestRun hprefix run)
    · rw [longestRun]
      split
      · exact ih hinfix (run + 1)
      · exact (ih hinfix 0).trans (Nat.le_max_right ..)

theorem notMem_of_longestRun (h : longestRun c 0 cs = 0) : c ∉ cs := by
  intro hmem
  obtain ⟨front, back, rfl⟩ := List.append_of_mem hmem
  have hone : List.replicate 1 c <:+: front ++ c :: back := ⟨front, back, List.append_assoc ..⟩
  have hle := le_longestRun hone 0
  omega

/-- Which texts a style can hold. -/
def Style.Suits (cs : List Char) : Style → Prop
  | .basic | .basicLines => True
  | .literal => ∀ c ∈ cs, isLiteral c
  | .literalLines =>
    (∀ c ∈ cs, isLiteral c ∨ c = '\n' ∨ c = '\'') ∧ ¬ List.replicate 3 '\'' <:+: cs

theorem isLiteral_of_not_control (h : isControl c = false) :
    isLiteral c ∨ c = '\n' ∨ c = '\'' := by
  by_cases hline : c = '\n'
  · exact Or.inr (Or.inl hline)
  by_cases hquote : c = '\''
  · exact Or.inr (Or.inr hquote)
  · left
    by_cases htab : c = '\t'
    · subst htab
      rfl
    · have hquote' : c.toNat ≠ 0x27 := fun heq => hquote (Char.toNat_inj.1 heq)
      have hrange : ¬ (c.toNat ≤ 0x1F ∨ c.toNat = 0x7F) := by
        intro hcontrol
        have htrue : isControl c = true := by simp [isControl, htab, hline, hcontrol]
        rw [htrue] at h
        cases h
      have hcases : (0x20 ≤ c.toNat ∧ c.toNat ≤ 0x26) ∨ (0x28 ≤ c.toNat ∧ c.toNat ≤ 0x7E) ∨
          0x80 ≤ c.toNat := by omega
      rcases hcases with h' | h' | h' <;> simp [isLiteral, isForeign, h']

/-- **The style that is chosen can hold the text.** -/
theorem suits_styleFor (cs : List Char) : (styleFor cs).Suits cs := by
  have hplain : (!cs.any isControl) = true → ∀ c ∈ cs, isLiteral c ∨ c = '\n' ∨ c = '\'' := by
    intro hcontrol c hc
    refine isLiteral_of_not_control (Bool.eq_false_iff.2 fun hyes => ?_)
    rw [List.any_eq_true.2 ⟨c, hc, hyes⟩] at hcontrol
    cases hcontrol
  unfold styleFor
  dsimp only
  split_ifs with h₁ h₂ h₃ h₄ h₅
  · trivial
  · simp only [Bool.and_eq_true, decide_eq_true_iff] at h₂
    obtain ⟨⟨hcontrol, hlines⟩, hsingles⟩ := h₂
    intro c hc
    refine (hplain hcontrol c hc).resolve_right ?_
    rintro (rfl | rfl)
    · rw [List.contains_iff_mem.2 hc] at hlines
      cases hlines
    · exact notMem_of_longestRun hsingles hc
  · trivial
  · simp only [Bool.and_eq_true, decide_eq_true_iff] at h₄
    refine ⟨hplain h₄.1, fun hthree => ?_⟩
    have hle := le_longestRun hthree 0
    omega
  · trivial
  · trivial

/-! ## All styles -/

theorem ne_quote_of_stops (h : Stops rest) : ∀ c ∈ rest.head?, c ≠ '"' ∧ c ≠ '\'' := by
  intro c hc
  rcases h c hc with rfl | rfl | rfl <;> decide

/-- A quote that is not one of three opens a text on one line. -/
theorem read?_of_one {quote : Char} (h : ∀ more, cs ≠ quote :: quote :: more)
    (hquote : quote = '"' ∨ quote = '\'') : read? (quote :: cs) = readLine? (quote :: cs) := by
  unfold read?
  split
  · rename_i heq
    obtain ⟨rfl, rfl⟩ := List.cons.inj heq
    exact absurd rfl (h _)
  · rename_i heq
    obtain ⟨rfl, rfl⟩ := List.cons.inj heq
    exact absurd rfl (h _)
  · rfl

/-- The line end behind the opening quotes is left out again. -/
theorem skipNewline_opening {body : List Char}
    (h : '\n' ∉ cs → ∀ c ∈ body.head?, c ≠ '\n' ∧ c ≠ '\r') :
    skipNewline (opening cs ++ body) = body := by
  unfold opening
  split
  · rfl
  · rename_i hlines
    have hhead := h fun hmem => hlines (List.contains_iff_mem.2 hmem)
    rw [skipNewline, List.nil_append]
    cases body with
    | nil => rfl
    | cons c body =>
      obtain ⟨hn, hr⟩ := hhead c rfl
      unfold newline?
      split
      · rename_i heq
        exact absurd (List.cons.inj heq).1 hn
      · rename_i heq
        exact absurd (List.cons.inj heq).1 hr
      · rfl

theorem read?_basic (hrest : Stops rest) :
    read? (Style.basic.write cs ++ rest) = some (String.ofList cs, rest) := by
  have hwrite : Style.basic.write cs ++ rest = '"' :: (escape false 0 0 cs ++ '"' :: rest) := by
    rw [Style.write, List.append_assoc]
    rfl
  have hone : ∀ more, escape false 0 0 cs ++ '"' :: rest ≠ '"' :: '"' :: more := by
    intro more hquotes
    cases cs with
    | nil =>
      obtain ⟨-, hsecond⟩ := List.cons.inj hquotes
      rw [hsecond] at hrest
      exact (ne_quote_of_stops hrest '"' rfl).1 rfl
    | cons c cs =>
      obtain ⟨d, ds, heq, hd, -⟩ := exists_escape_eq false 0 0 c cs
      rw [heq] at hquotes
      exact absurd (hd (List.cons.inj hquotes).1).2 (Nat.lt_irrefl 0)
  rw [hwrite, read?_of_one hone (Or.inl rfl), readLine?, readBasic?_escape]
  rfl

theorem read?_literal (h : ∀ c ∈ cs, isLiteral c) (hrest : Stops rest) :
    read? (Style.literal.write cs ++ rest) = some (String.ofList cs, rest) := by
  have hwrite : Style.literal.write cs ++ rest = '\'' :: (cs ++ '\'' :: rest) := by
    rw [Style.write, List.append_assoc]
    rfl
  have hone : ∀ more, cs ++ '\'' :: rest ≠ '\'' :: '\'' :: more := by
    intro more hquotes
    cases cs with
    | nil =>
      obtain ⟨-, hsecond⟩ := List.cons.inj hquotes
      rw [hsecond] at hrest
      exact (ne_quote_of_stops hrest '\'' rfl).2 rfl
    | cons c cs =>
      have hc := h c List.mem_cons_self
      rw [(List.cons.inj hquotes).1] at hc
      cases hc
  rw [hwrite, read?_of_one hone (Or.inr rfl), readLine?, readLiteral?_append h]
  rfl

theorem read?_basicLines (hrest : Stops rest) :
    read? (Style.basicLines.write cs ++ rest) = some (String.ofList cs, rest) := by
  have hwrite : Style.basicLines.write cs ++ rest = '"' :: '"' :: '"' ::
      (opening cs ++ (escape true 2 0 cs ++ '"' :: '"' :: '"' :: rest)) := by
    simp only [Style.write, List.append_assoc]
    rfl
  have hhead : '\n' ∉ cs → ∀ c ∈ (escape true 2 0 cs ++ '"' :: '"' :: '"' :: rest).head?,
      c ≠ '\n' ∧ c ≠ '\r' := by
    intro hlines
    cases cs with
    | nil =>
      rintro c ⟨⟩
      decide
    | cons c cs =>
      obtain ⟨d, ds, heq, -, hn, hr⟩ := exists_escape_eq true 2 0 c cs
      rw [heq]
      rintro _ ⟨⟩
      exact ⟨fun hd => hlines (hn hd ▸ List.mem_cons_self), hr⟩
  rw [hwrite, read?, skipNewline_opening hhead,
    readLines?_escape fun c hc => (ne_quote_of_stops hrest c hc).1]
  rfl

theorem read?_literalLines (h : ∀ c ∈ cs, isLiteral c ∨ c = '\n' ∨ c = '\'')
    (hthree : ¬ List.replicate 3 '\'' <:+: cs) (hrest : Stops rest) :
    read? (Style.literalLines.write cs ++ rest) = some (String.ofList cs, rest) := by
  have hwrite : Style.literalLines.write cs ++ rest = '\'' :: '\'' :: '\'' ::
      (opening cs ++ (cs ++ '\'' :: '\'' :: '\'' :: rest)) := by
    simp only [Style.write, List.append_assoc]
    rfl
  have hhead : '\n' ∉ cs → ∀ c ∈ (cs ++ '\'' :: '\'' :: '\'' :: rest).head?, c ≠ '\n' ∧ c ≠ '\r' := by
    intro hlines
    cases cs with
    | nil =>
      rintro c ⟨⟩
      decide
    | cons c cs =>
      rintro _ ⟨⟩
      refine ⟨fun hc => hlines (hc ▸ List.mem_cons_self), ?_⟩
      rintro rfl
      exact absurd (h '\r' List.mem_cons_self) (by decide)
  rw [hwrite, read?, skipNewline_opening hhead,
    readLiteralLines?_append (fun c hc => (ne_quote_of_stops hrest c hc).2) h hthree]
  rfl

/-- What a style can hold is read as it was. -/
theorem read?_of_suits {style : Style} (h : style.Suits cs) (hrest : Stops rest) :
    read? (style.write cs ++ rest) = some (String.ofList cs, rest) := by
  cases style with
  | basic => exact read?_basic hrest
  | literal => exact read?_literal h hrest
  | basicLines => exact read?_basicLines hrest
  | literalLines => exact read?_literalLines h.1 h.2 hrest

/-- **A text is read as it was before it was written.** -/
theorem read?_write (s : String) (hrest : Stops rest) :
    read? (Quoted.write s ++ rest) = some (s, rest) := by
  rw [Quoted.write, read?_of_suits (suits_styleFor s.toList) hrest, String.ofList_toList]

end Quoted

end Toml

end Apportion
