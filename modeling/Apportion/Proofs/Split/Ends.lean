/-
  Where the stored form of a split ends.

  * `Defect.isCut`: octets that end too early.
  * `Steady`: a reader that is not changed by what follows the octets that it has read, and not by what
    follows those that it refused, unless they ended too early.
  * `Steady.cut`, `Steady.bind`: a reader of counted octets, and one reader behind another one;
    `steady_string`, `steady_list`: the readers of a split.
  * `decode?_append`: what follows a stored split is counted, and what is none stays so.
  * `encode_ends_itself`: neither a part of a stored split is one, nor anything that goes on from it.
-/
import Apportion.Proofs.Split.Codec

namespace Apportion

namespace Split

open Octets Sequence

/-- Whether octets end before what they should hold. -/
def Defect.isCut : Defect → Bool
  | noCount _ | noLength .. | cutShort .. => true
  | negativeCount .. | notText .. | trailing _ => false

/-! ## Readers and what follows -/

/-- What a reader reads off octets, it reads whatever follows them; and what it finds wrong with them
    stays wrong, unless they ended too early. -/
structure Steady {α : Type} (read : Octets → Except Defect (α × Octets)) : Prop where
  ok : ∀ {o a rest}, read o = .ok (a, rest) → ∀ more, read (o ++ more) = .ok (a, rest ++ more)
  error : ∀ {o defect}, read o = .error defect → defect.isCut = false →
    ∀ more, read (o ++ more) = .error defect

namespace Steady

variable {α β : Type}

theorem pure (a : α) : Steady fun o => .ok (a, o) where
  ok h more := by cases h; rfl
  error h := by cases h

theorem throw (defect : Defect) : Steady fun _ => (.error defect : Except Defect (α × Octets)) where
  ok h := by cases h
  error h _ more := by cases h; rfl

/-- One reader behind another one. -/
theorem bind {read : Octets → Except Defect (α × Octets)}
    {next : α × Octets → Except Defect (β × Octets)} (h : Steady read)
    (h' : ∀ a, Steady fun o => next (a, o)) : Steady fun o => read o >>= next where
  ok hread more := by
    obtain ⟨⟨a, mid⟩, ha, hnext⟩ := bind_eq_ok_iff.1 hread
    exact bind_eq_ok_iff.2 ⟨(a, mid ++ more), h.ok ha more, (h' a).ok hnext more⟩
  error hread hcut more := by
    rcases bind_eq_error_iff.1 hread with ha | ⟨⟨a, mid⟩, ha, hnext⟩
    · exact bind_eq_error_iff.2 (Or.inl (h.error ha hcut more))
    · exact bind_eq_error_iff.2
        (Or.inr ⟨(a, mid ++ more), h.ok ha more, (h' a).error hnext hcut more⟩)

/-- A reader of so many octets, for which there being fewer is a cut. -/
theorem cut (n : Nat) (short : Octets → Defect) (hshort : ∀ o, (short o).isCut = true)
    {next : Octets → Octets → Except Defect (α × Octets)} (h : ∀ front, Steady (next front)) :
    Steady fun o => match splitAt? n o with
      | none => .error (short o)
      | some (front, back) => next front back := by
  have happend : ∀ {o front back}, splitAt? n o = some (front, back) → ∀ more,
      splitAt? n (o ++ more) = some (front, back ++ more) := by
    intro o front back hsplit more
    obtain ⟨rfl, hlength⟩ := splitAt?_eq_some_iff.1 hsplit
    exact splitAt?_eq_some_iff.2 ⟨List.append_assoc .., hlength⟩
  constructor
  · intro o a rest hread more
    split at hread
    · cases hread
    · rename_i front back hsplit
      simp only [happend hsplit more]
      exact (h front).ok hread more
  · intro o defect hread hcut more
    split at hread
    · cases hread
      rw [hshort] at hcut
      cases hcut
    · rename_i front back hsplit
      simp only [happend hsplit more]
      exact (h front).error hread hcut more

end Steady

/-! ## The readers of a split -/

variable {kind : Section} {o : Octets} {s : Split}

theorem steady_string (index : Nat) : Steady (decodeString kind index) := by
  refine Steady.cut 2 (fun _ => .noLength kind index) (fun _ => rfl) fun field => ?_
  refine Steady.cut _ (fun o => .cutShort kind index (ofBigEndian field) o.length)
    (fun _ => rfl) fun content => ?_
  cases Utf8.decode content with
  | error fault => exact .throw _
  | ok s => exact .pure s

theorem steady_strings (count index : Nat) : Steady (decodeStrings kind count index) := by
  induction count generalizing index with
  | zero => exact .pure []
  | succ count ih =>
    exact (steady_string index).bind fun s =>
      (ih (index + 1)).bind fun strings => .pure (s :: strings)

theorem steady_list : Steady (decodeList kind) := by
  refine Steady.cut 4 (fun _ => .noCount kind) (fun _ => rfl) fun field => ?_
  by_cases hcount : ofBigEndian field ≤ maxCount
  · simp only [hcount, if_true]
    exact steady_strings _ 0
  · simp only [hcount, if_false]
    exact .throw _

/-- Both lists, one behind the other. -/
def decodeLists (o : Octets) : Except Defect ((List String × List String) × Octets) := do
  let (paths, o) ← decodeList .paths o
  let (hosts, o) ← decodeList .hosts o
  return ((paths, hosts), o)

theorem steady_lists : Steady decodeLists :=
  steady_list.bind fun paths => steady_list.bind fun hosts => .pure (paths, hosts)

/-! ## Splits -/

/-- A split is both lists with nothing behind them. -/
theorem decode?_eq (o : Octets) : decode? o = decodeLists o >>= fun ((paths, hosts), rest) =>
    if rest = [] then .ok (.of paths hosts) else .error (.trailing rest.length) := by
  unfold decode? decodeLists
  cases decodeList .paths o with
  | error defect => rfl
  | ok found =>
    obtain ⟨paths, mid⟩ := found
    dsimp only [bind, Except.bind]
    cases decodeList .hosts mid with
    | error defect => rfl
    | ok found =>
      obtain ⟨hosts, rest⟩ := found
      cases rest <;> rfl

/-- What follows a split is counted, and refused octets stay so unless they ended too early. -/
theorem decode?_append {more : Octets} (hmore : more ≠ []) :
    (decode? o = .ok s → decode? (o ++ more) = .error (.trailing more.length)) ∧
    ∀ defect, decode? o = .error defect → defect.isCut = false →
      ∃ defect', decode? (o ++ more) = .error defect' := by
  rw [decode?_eq, decode?_eq]
  cases hlists : decodeLists o with
  | error defect =>
    refine ⟨fun h => (by cases h), fun defect' h hcut => ?_⟩
    cases h
    exact ⟨defect, by rw [steady_lists.error hlists hcut more]; rfl⟩
  | ok found =>
    obtain ⟨⟨paths, hosts⟩, rest⟩ := found
    have hbehind : rest ++ more ≠ [] := List.append_ne_nil_of_right_ne_nil _ hmore
    rw [steady_lists.ok hlists more]
    change ((if rest = [] then _ else _) = _ → (if rest ++ more = [] then _ else _) = _) ∧ ∀ _, _
    rw [if_neg hbehind]
    refine ⟨fun h => ?_, fun _ _ _ => ⟨_, if_neg hbehind⟩⟩
    split at h
    · rename_i hrest
      rw [hrest, List.nil_append]
    · cases h

/-- **A stored split ends where it ends.**  Octets cut off before its end are refused because they end
    too early, wherever the cut falls; and where octets go on behind it, all that is wrong is how
    many they are. -/
theorem encode_ends_itself (h : s.encode = .ok o) :
    (∀ front, front <+: o → front ≠ o → ∃ defect : Defect, defect.isCut = true ∧
      decode front = .error (.corruptSplit defect.message)) ∧
    ∀ rest, rest ≠ [] → decode (o ++ rest) =
      .error (.corruptSplit s!"{rest.length} trailing bytes after host list") := by
  have hread : decode? o = .ok s := decode_eq_ok_iff_decode?.1 (decode_of_encode h)
  have herror : ∀ {o defect}, decode? o = .error defect →
      decode o = .error (.corruptSplit defect.message) := fun h => by rw [decode, h]
  refine ⟨fun front hfront hne => ?_, fun rest hrest => herror ((decode?_append hrest).1 hread)⟩
  obtain ⟨more, rfl⟩ := hfront
  have hmore : more ≠ [] := by
    rintro rfl
    exact hne (List.append_nil _).symm
  cases hdecode : decode? front with
  | ok s' =>
    cases hread.symm.trans ((decode?_append hmore).1 hdecode)
  | error defect =>
    refine ⟨defect, ?_, herror hdecode⟩
    by_contra hcut
    obtain ⟨defect', hdefect'⟩ :=
      (decode?_append (s := s) hmore).2 defect hdecode (Bool.eq_false_iff.2 hcut)
    cases hread.symm.trans hdefect'

/-- A split of two paths and a host, cut between its lists, inside a character and behind its end. -/
theorem encode_ends_itself_umlaut :
    let s := of ["a", "ü"] ["h"]
    ∃ o, s.encode = .ok o ∧
      (∃ defect : Defect, defect.isCut = true ∧
        decode (o.take 11) = .error (.corruptSplit defect.message)) ∧
      (∃ defect : Defect, defect.isCut = true ∧
        decode (o.take 10) = .error (.corruptSplit defect.message)) ∧
      decode (o ++ [0, 0]) = .error (.corruptSplit s!"{2} trailing bytes after host list") := by
  intro s
  have hencode : s.encode = .ok
      [0, 0, 0, 2, 0, 1, 97, 0, 2, 195, 188, 0, 0, 0, 1, 0, 1, 104] := by decide +kernel
  obtain ⟨hcut, hbehind⟩ := encode_ends_itself hencode
  exact ⟨_, hencode, hcut _ (List.take_prefix 11 _) (by decide),
    hcut _ (List.take_prefix 10 _) (by decide), hbehind [0, 0] (by decide)⟩

end Split

end Apportion
