/-
  Requests made one after the other, up to the first that fails.

  * `mapM_eq_ok_iff`: all succeed, each with the answer at its place.
  * `mapM_eq_error_iff`: the answer is the failure of the first that fails.
  * `bind_eq_ok_iff`, `bind_eq_error_iff`: one request and what follows it.
  * `foldlM_cons_eq_ok_iff`, `foldlM_eq_error_iff`: requests of which each goes on from the last.
  * `toOption_bind_congr`, `toOption_mapM_congr`: requests that differ in nothing but their failures.
-/
import Mathlib.Data.List.Forall2

namespace Apportion

namespace Sequence

variable {α β ε : Type}

theorem bind_eq_ok_iff {x : Except ε α} {f : α → Except ε β} {b : β} :
    x >>= f = .ok b ↔ ∃ a, x = .ok a ∧ f a = .ok b := by
  cases x with
  | error e =>
    constructor
    · intro h; cases h
    · rintro ⟨a, h, -⟩; cases h
  | ok a =>
    constructor
    · intro h; exact ⟨a, rfl, h⟩
    · rintro ⟨a', h, hf⟩; cases h; exact hf

theorem bind_eq_error_iff {x : Except ε α} {f : α → Except ε β} {e : ε} :
    x >>= f = .error e ↔ x = .error e ∨ ∃ a, x = .ok a ∧ f a = .error e := by
  cases x with
  | error e' =>
    constructor
    · intro h; cases h; exact Or.inl rfl
    · rintro (h | ⟨a, h, -⟩)
      · cases h; rfl
      · cases h
  | ok a =>
    constructor
    · intro h; exact Or.inr ⟨a, rfl, h⟩
    · rintro (h | ⟨a', h, hf⟩)
      · cases h
      · cases h; exact hf

/-- What is only put together behind a request does not fail. -/
theorem exists_bind_pure_eq_ok_iff {x : Except ε α} {f : α → β} :
    (∃ b, (x >>= fun a => pure (f a)) = .ok b) ↔ ∃ a, x = .ok a := by
  constructor
  · rintro ⟨b, h⟩
    obtain ⟨a, ha, -⟩ := bind_eq_ok_iff.1 h
    exact ⟨a, ha⟩
  · rintro ⟨a, ha⟩
    exact ⟨f a, bind_eq_ok_iff.2 ⟨a, ha, rfl⟩⟩

theorem map_eq_ok_iff {x : Except ε α} {f : α → β} {b : β} :
    x.map f = .ok b ↔ ∃ a, x = .ok a ∧ f a = b := by
  cases x <;> simp [Except.map]

theorem exists_eq_ok_iff {x : Except ε α} : (∃ a, x = .ok a) ↔ x.isOk = true := by
  cases x <;> simp [Except.isOk, Except.toBool]

theorem toOption_eq_some_iff {x : Except ε α} {a : α} : x.toOption = some a ↔ x = .ok a := by
  cases x <;> simp [Except.toOption]

/-- Requests that differ in nothing but their failures stay so with what follows them. -/
theorem toOption_bind_congr {ε' : Type} {x : Except ε α} {y : Except ε' α} {f : α → Except ε β}
    {g : α → Except ε' β} (h : x.toOption = y.toOption)
    (hfollow : ∀ a, (f a).toOption = (g a).toOption) : (x >>= f).toOption = (y >>= g).toOption := by
  cases x with
  | error e =>
    cases y with
    | error e' => rfl
    | ok a => cases h
  | ok a =>
    cases y with
    | error e' => cases h
    | ok a' =>
      cases h
      exact hfollow a

theorem toOption_mapM_congr {ε' : Type} {f : α → Except ε β} {g : α → Except ε' β} {l : List α}
    (h : ∀ a ∈ l, (f a).toOption = (g a).toOption) : (l.mapM f).toOption = (l.mapM g).toOption := by
  induction l with
  | nil => rfl
  | cons a l ih =>
    obtain ⟨ha, hl⟩ := List.forall_mem_cons.1 h
    rw [List.mapM_cons, List.mapM_cons]
    exact toOption_bind_congr ha fun _ => toOption_bind_congr (ih hl) fun _ => rfl

theorem foldlM_cons_eq_ok_iff {f : β → α → Except ε β} {a : α} {l : List α} {b last : β} :
    (a :: l).foldlM f b = .ok last ↔ ∃ mid, f b a = .ok mid ∧ l.foldlM f mid = .ok last := by
  rw [List.foldlM_cons, bind_eq_ok_iff]

/-- Steps fail with the first that fails. -/
theorem foldlM_eq_error_iff {f : β → α → Except ε β} {l : List α} {b : β} {e : ε} :
    l.foldlM f b = .error e ↔ ∃ before a after mid, l = before ++ a :: after ∧
      before.foldlM f b = .ok mid ∧ f mid a = .error e := by
  induction l generalizing b with
  | nil =>
    constructor
    · intro h; cases h
    · rintro ⟨before, a, after, mid, h, -⟩; simp at h
  | cons a l ih =>
    rw [List.foldlM_cons, bind_eq_error_iff]
    constructor
    · rintro (h | ⟨b', hb', h⟩)
      · exact ⟨[], a, l, b, rfl, rfl, h⟩
      · obtain ⟨before, a', after, mid, rfl, hbefore, ha'⟩ := ih.1 h
        exact ⟨a :: before, a', after, mid, rfl, foldlM_cons_eq_ok_iff.2 ⟨b', hb', hbefore⟩, ha'⟩
    · rintro ⟨before, a', after, mid, h, hbefore, ha'⟩
      cases before with
      | nil => cases h; cases hbefore; exact Or.inl ha'
      | cons c before =>
        cases h
        obtain ⟨b', hb', hbefore⟩ := foldlM_cons_eq_ok_iff.1 hbefore
        exact Or.inr ⟨b', hb', ih.2 ⟨before, a', after, mid, rfl, hbefore, ha'⟩⟩

/-- **All requests succeed** iff each has the answer at its place. -/
theorem mapM_eq_ok_iff {f : α → Except ε β} {l : List α} {answers : List β} :
    l.mapM f = .ok answers ↔ List.Forall₂ (fun a b => f a = .ok b) l answers := by
  induction l generalizing answers with
  | nil =>
    rw [List.mapM_nil, List.forall₂_nil_left_iff]
    constructor
    · intro h; cases h; rfl
    · rintro rfl; rfl
  | cons a l ih =>
    rw [List.mapM_cons, bind_eq_ok_iff, List.forall₂_cons_left_iff]
    constructor
    · rintro ⟨b, hb, h⟩
      obtain ⟨bs, hbs, h⟩ := bind_eq_ok_iff.1 h
      cases h
      exact ⟨b, bs, hb, ih.1 hbs, rfl⟩
    · rintro ⟨b, bs, hb, hbs, rfl⟩
      exact ⟨b, hb, bind_eq_ok_iff.2 ⟨bs, ih.2 hbs, rfl⟩⟩

/-- **The first failure is the answer.** -/
theorem mapM_eq_error_iff {f : α → Except ε β} {l : List α} {e : ε} :
    l.mapM f = .error e ↔ ∃ before a after,
      l = before ++ a :: after ∧ (∀ b ∈ before, ∃ v, f b = .ok v) ∧ f a = .error e := by
  induction l with
  | nil =>
    constructor
    · intro h; cases h
    · rintro ⟨before, a, after, h, -⟩; simp at h
  | cons a l ih =>
    rw [List.mapM_cons, bind_eq_error_iff]
    constructor
    · rintro (h | ⟨b, hb, h⟩)
      · exact ⟨[], a, l, rfl, by simp, h⟩
      · -- the answers behind the first one are only put together
        rcases bind_eq_error_iff.1 h with h | ⟨bs, -, h⟩
        · obtain ⟨before, a', after, rfl, hbefore, ha'⟩ := ih.1 h
          refine ⟨a :: before, a', after, rfl, ?_, ha'⟩
          intro c hc
          rcases List.mem_cons.1 hc with rfl | hc
          · exact ⟨b, hb⟩
          · exact hbefore c hc
        · cases h
    · rintro ⟨before, a', after, h, hbefore, ha'⟩
      cases before with
      | nil => cases h; exact Or.inl ha'
      | cons c before =>
        cases h
        obtain ⟨b, hb⟩ := hbefore a (List.mem_cons_self ..)
        have htail := ih.2 ⟨before, a', after, rfl,
          fun c hc => hbefore c (List.mem_cons_of_mem _ hc), ha'⟩
        exact Or.inr ⟨b, hb, bind_eq_error_iff.2 (Or.inl htail)⟩

/-- Either all requests succeed or one is the first to fail. -/
theorem exists_mapM_eq_ok_iff {f : α → Except ε β} {l : List α} :
    (∃ answers, l.mapM f = .ok answers) ↔ ∀ a ∈ l, ∃ b, f a = .ok b := by
  constructor
  · rintro ⟨answers, h⟩ a ha
    have hall := mapM_eq_ok_iff.1 h
    obtain ⟨i, hi, rfl⟩ := List.getElem_of_mem ha
    exact ⟨_, hall.get hi (hall.length_eq ▸ hi)⟩
  · intro h
    cases hm : l.mapM f with
    | ok answers => exact ⟨answers, rfl⟩
    | error e =>
      obtain ⟨before, a, after, rfl, -, ha⟩ := mapM_eq_error_iff.1 hm
      obtain ⟨b, hb⟩ := h a (by simp)
      rw [hb] at ha
      cases ha

end Sequence

end Apportion
