/-
  Which texts stand for a descriptor on a command line.

  * `Denotes source d`: the grammar.  A text without a colon is the path of a whole file; any other
    is a path, a colon, the start of a range, a dash and its end.
  * `parse_eq_ok_iff`, `parse_eq_error`: the reader accepts the grammar, and refuses all else as unfit.
  * `written`: a range printed behind its path; `denotes_written`: it is in the grammar whatever the
    path is.
  * `parse_iff_denotes`: both together.
-/
import Apportion.Descriptor.Notation
import Apportion.Proofs.Decimal.Numeral

namespace Apportion

namespace Text

variable {sep : Char} {cs : List Char}

theorem cutFirst?_eq_none_iff : cutFirst? sep cs = none ↔ sep ∉ cs := by
  constructor
  · intro h hmem
    obtain ⟨before, after, hcs, hbefore⟩ := List.eq_append_cons_of_mem hmem
    rw [cutFirst?_eq_some_iff.2 ⟨hcs, hbefore⟩] at h
    cases h
  · intro h
    rw [Option.eq_none_iff_forall_ne_some]
    rintro ⟨before, after⟩ hcut
    rw [(cutFirst?_eq_some_iff.1 hcut).1] at h
    exact h (List.mem_append_right _ List.mem_cons_self)

theorem cutLast?_eq_none_iff : cutLast? sep cs = none ↔ sep ∉ cs := by
  rw [cutLast?, Option.map_eq_none_iff, cutFirst?_eq_none_iff, List.mem_reverse]

end Text

namespace Descriptor

open Decimal (Writes)

/-! ## The grammar -/

/-- The texts that end a range: none for the end of the file, or a number that is not below the
    start. -/
inductive WritesStop (start : UInt64) : List Char → Option UInt64 → Prop
  | unbounded : WritesStop start [] none
  | bounded {cs stop} : Writes cs stop.toNat → start ≤ stop → WritesStop start cs (some stop)

/-- The texts that stand for descriptors. -/
inductive Denotes : String → Descriptor → Prop
  | whole {source} : ':' ∉ source.toList → Denotes source { source := some source }
  | range {path front back : String} {start stop} : ':' ∉ front.toList → ':' ∉ back.toList →
      '-' ∉ front.toList → Writes front.toList start.toNat → WritesStop start back.toList stop →
      Denotes (path ++ ":" ++ front ++ "-" ++ back) { source := some path, start, stop }

/-- A range behind the path of its file. -/
def written (path : String) (start : UInt64) (stop : Option UInt64) : String :=
  path ++ ":" ++ toString start.toNat ++ "-" ++
    match stop with
    | none => ""
    | some stop => toString stop.toNat

/-! ## Reading -/

variable {source path : String} {start : UInt64} {stop : Option UInt64} {d : Descriptor}

theorem writesStop_iff {cs : List Char} : WritesStop start cs stop ↔
    parseStop? cs = some stop ∧ isReversed start stop = false := by
  unfold parseStop?
  constructor
  · rintro (_ | ⟨hwrites, hle⟩)
    · exact ⟨rfl, rfl⟩
    · have hne : cs ≠ [] := by
        rintro rfl
        cases hwrites
        contradiction
      rw [if_neg hne, Decimal.quantity?_eq_some_iff.2 hwrites]
      exact ⟨rfl, decide_eq_false (UInt64.not_lt.2 hle)⟩
  · rintro ⟨hparse, hordered⟩
    split at hparse
    · rename_i hnil
      cases hparse
      rw [hnil]
      exact .unbounded
    · obtain ⟨q, hq, rfl⟩ := Option.map_eq_some_iff.1 hparse
      have hle : start ≤ q := UInt64.not_lt.1 (of_decide_eq_false hordered)
      exact .bounded (Decimal.quantity?_eq_some_iff.1 hq) hle

theorem parseRange?_eq_some_iff {cs : List Char} : parseRange? cs = some (start, stop) ↔
    ∃ front back, cs = front ++ '-' :: back ∧ '-' ∉ front ∧ Writes front start.toNat ∧
      parseStop? back = some stop := by
  unfold parseRange?
  simp only [Option.bind_eq_bind, Option.bind_eq_some_iff, Option.pure_def, Option.some.injEq,
    Prod.exists, Prod.mk.injEq, Text.cutFirst?_eq_some_iff, Decimal.quantity?_eq_some_iff]
  constructor
  · rintro ⟨front, back, ⟨hcs, hdash⟩, first, hfirst, last, hlast, rfl, rfl⟩
    exact ⟨front, back, hcs, hdash, hfirst, hlast⟩
  · rintro ⟨front, back, hcs, hdash, hfirst, hlast⟩
    exact ⟨front, back, ⟨hcs, hdash⟩, start, hfirst, stop, hlast, rfl, rfl⟩

theorem denotes_of_parse (h : parse source = .ok d) : Denotes source d := by
  unfold parse at h
  split at h
  · rename_i hcut
    cases h
    exact .whole (Text.cutLast?_eq_none_iff.1 hcut)
  · rename_i front range hcut
    split at h
    · cases h
    · rename_i start stop hrange
      split at h
      · cases h
      · rename_i hordered
        cases h
        obtain ⟨hsource, hcolon⟩ := Text.cutLast?_eq_some_iff.1 hcut
        obtain ⟨first, last, rfl, hdash, hfirst, hlast⟩ := parseRange?_eq_some_iff.1 hrange
        rw [List.mem_append, List.mem_cons, not_or, not_or] at hcolon
        have htext : source = String.ofList front ++ ":" ++ String.ofList first ++ "-" ++
            String.ofList last := by
          apply String.toList_injective
          simpa using hsource
        rw [htext]
        refine .range ?_ ?_ ?_ ?_ ?_ <;> rw [String.toList_ofList]
        · exact hcolon.1
        · exact hcolon.2.2
        · exact hdash
        · exact hfirst
        · exact writesStop_iff.2 ⟨hlast, eq_false_of_ne_true hordered⟩

theorem parse_of_denotes (h : Denotes source d) : parse source = .ok d := by
  unfold parse
  obtain hcolon | @⟨path, front, back, start, stop, hfront, hback, hdash, hstart, hstop⟩ := h
  · rw [Text.cutLast?_eq_none_iff.2 hcolon]
  · have hcut : Text.cutLast? ':' (path ++ ":" ++ front ++ "-" ++ back).toList =
        some (path.toList, front.toList ++ '-' :: back.toList) := by
      refine Text.cutLast?_eq_some_iff.2 ⟨by simp, ?_⟩
      rw [List.mem_append, List.mem_cons, not_or, not_or]
      exact ⟨hfront, by decide, hback⟩
    obtain ⟨hlast, hordered⟩ := writesStop_iff.1 hstop
    rw [hcut]
    dsimp only
    rw [parseRange?_eq_some_iff.2 ⟨_, _, rfl, hdash, hstart, hlast⟩]
    dsimp only
    rw [hordered, String.ofList_toList]
    rfl

theorem parse_eq_ok_iff : parse source = .ok d ↔ Denotes source d :=
  ⟨denotes_of_parse, parse_of_denotes⟩

/-- What is not in the grammar is unfit. -/
theorem parse_eq_error {failure : Failure} (h : parse source = .error failure) :
    ∃ problem, failure = .descriptor source problem := by
  unfold parse at h
  split at h
  · cases h
  · split at h
    · cases h
      exact ⟨_, rfl⟩
    · split at h
      · cases h
        exact ⟨_, rfl⟩
      · cases h

/-- A range behind its path is in the grammar, whatever characters the path has. -/
theorem denotes_written (path : String) (hordered : ∀ last ∈ stop, start ≤ last) :
    Denotes (written path start stop) { source := some path, start, stop } := by
  have hdigit : ∀ {n : Nat} {c : Char}, c.isDigit = false → c ∉ (toString n).toList := by
    intro n c hc hmem
    rw [Decimal.isDigit_of_mem_toString hmem] at hc
    cases hc
  unfold written
  cases stop with
  | none =>
    exact .range (hdigit (by decide)) (by decide) (hdigit (by decide)) (Decimal.writes_toString _)
      .unbounded
  | some stop =>
    exact .range (hdigit (by decide)) (hdigit (by decide)) (hdigit (by decide))
      (Decimal.writes_toString _) (.bounded (Decimal.writes_toString _) (hordered stop rfl))

/-- **The notation of sources.**  A text is read as a descriptor iff the grammar says that it stands
    for it, and all others are refused as unfit descriptors.  So a range printed behind its path is
    read back, with colons and dashes in the path and with all ends up to the largest quantity. -/
theorem parse_iff_denotes :
    (∀ source d, parse source = .ok d ↔ Denotes source d) ∧
    (∀ source, (∃ d, Denotes source d) ∨
      ∃ problem, parse source = .error (.descriptor source problem)) ∧
    ∀ path start stop, (∀ last ∈ stop, start ≤ last) →
      parse (written path start stop) = .ok { source := some path, start, stop } := by
  refine ⟨fun source d => parse_eq_ok_iff, fun source => ?_, fun path start stop hordered => ?_⟩
  · cases hparse : parse source with
    | ok d => exact Or.inl ⟨d, parse_eq_ok_iff.1 hparse⟩
    | error failure =>
      obtain ⟨problem, rfl⟩ := parse_eq_error hparse
      exact Or.inr ⟨problem, rfl⟩
  · exact parse_eq_ok_iff.2 (denotes_written path hordered)

/-- The last colon ends the path, zeros in front and plus signs do not count. -/
example : (parse "a:1-:b-c:007-+18446744073709551615").toOption =
    some { source := some "a:1-:b-c", start := 7, stop := some 18446744073709551615 } := by
  decide +kernel

end Descriptor

end Apportion
