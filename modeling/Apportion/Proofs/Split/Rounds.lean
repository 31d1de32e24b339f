/-
  How a list of strings is read out of a buffer, round after round.

  * `Piece`: a part of a buffer, by its place.
  * `Round`, `round`: the pieces that are taken to read one string, and what comes of it; before a
    piece is taken, what is left of the buffer is compared with its size.
  * `rounds`: the rounds that are made for a count, up to the first that finds no string.
  * `decodeString_drop`, `decodeStrings_drop`: reading a string is a round, and reading several is the
    rounds made.
  * `decodeList_bounded`: the rounds made for a list are bounded by the octets behind its count,
    whatever the count says, and no piece of them leaves the buffer.
-/
import Apportion.Proofs.Sequence
import Apportion.Split.Codec
import Mathlib.Algebra.GroupWithZero.Nat
import Mathlib.Tactic.SplitIfs

namespace Apportion

namespace Split

open Octets Sequence

/-! ## Pieces -/

/-- A piece of a buffer: where it starts, and how many octets it has. -/
structure Piece where
  start : Nat
  size : Nat
  deriving DecidableEq, Repr

namespace Piece

/-- Where a piece ends. -/
def stop (p : Piece) : Nat := p.start + p.size

/-- The octets of a piece. -/
def octets (buffer : Octets) (p : Piece) : Octets := (buffer.drop p.start).take p.size

/-- What is taken off the front of the rest of a buffer is a piece, if that much is left. -/
theorem splitAt?_drop {buffer : Octets} {start size : Nat} (h : ¬ buffer.length - start < size) :
    splitAt? size (buffer.drop start) =
      some (octets buffer ⟨start, size⟩, buffer.drop (start + size)) := by
  refine splitAt?_eq_some_iff.2 ⟨?_, ?_⟩
  · rw [octets, ← List.drop_drop, List.take_append_drop]
  · rw [octets, List.length_take, List.length_drop, Nat.min_eq_left (Nat.not_lt.1 h)]

theorem splitAt?_drop_of_lt {buffer : Octets} {start size : Nat} (h : buffer.length - start < size) :
    splitAt? size (buffer.drop start) = none := by
  rw [splitAt?_eq_none_iff, List.length_drop]
  exact h

end Piece

/-! ## Rounds -/

/-- How one string is read out of a buffer. -/
structure Round where
  /-- The pieces of the buffer that are taken, one after the other. -/
  pieces : List Piece
  /-- Where the buffer is read from afterwards. -/
  stop : Nat
  /-- The string, or what is wrong. -/
  outcome : Except Defect String

/-- Reads the string at `index` of a list from `position` on. -/
def round (kind : Section) (buffer : Octets) (index position : Nat) : Round :=
  if buffer.length - position < 2 then ⟨[], position, .error (.noLength kind index)⟩
  else
    let field : Piece := ⟨position, 2⟩
    let length := ofBigEndian (field.octets buffer)
    let left := buffer.length - (position + 2)
    if left < length then
      ⟨[field], position + 2, .error (.cutShort kind index length left)⟩
    else
      let content : Piece := ⟨position + 2, length⟩
      match Utf8.decode (content.octets buffer) with
      | .error fault => ⟨[field, content], position + 2, .error (.notText kind index fault)⟩
      | .ok s => ⟨[field, content], position + 2 + length, .ok s⟩

/-- The rounds that are made to read `count` strings, of which the first stands at `index` of a list
    and at `position` of the buffer. -/
def rounds (kind : Section) (buffer : Octets) : (count index position : Nat) → List Round
  | 0, _, _ => []
  | count + 1, index, position =>
    let r := round kind buffer index position
    match r.outcome with
    | .error _ => [r]
    | .ok _ => r :: rounds kind buffer count (index + 1) r.stop

/-- The strings that rounds have read. -/
def collected (made : List Round) : List String := made.filterMap fun r => r.outcome.toOption

/-- The number of octets that strings take, each with its length in front. -/
def storedSize (strings : List String) : Nat := (strings.map fun s => 2 + s.utf8ByteSize).sum

/-- The count that a buffer starts with, or what is wrong with it. -/
def count? (kind : Section) (buffer : Octets) : Except Defect Nat :=
  if buffer.length < 4 then .error (.noCount kind)
  else
    let count := ofBigEndian (Piece.octets buffer ⟨0, 4⟩)
    if count ≤ maxCount then .ok count else .error (.negativeCount kind ((count : Int) - 2 ^ 32))

variable {kind : Section} {buffer : Octets} {count index position : Nat} {s : String}
  {strings : List String}

/-! ## One round -/

/-- **Reading a string is one round.** -/
theorem decodeString_drop (kind : Section) (buffer : Octets) (index position : Nat) :
    decodeString kind index (buffer.drop position) =
      (round kind buffer index position).outcome.map
        fun s => (s, buffer.drop (round kind buffer index position).stop) := by
  unfold decodeString round
  dsimp only
  by_cases hfield : buffer.length - position < 2
  · rw [if_pos hfield, Piece.splitAt?_drop_of_lt hfield]
    rfl
  rw [if_neg hfield, Piece.splitAt?_drop hfield]
  dsimp only
  generalize ofBigEndian (Piece.octets buffer ⟨position, 2⟩) = length
  by_cases hcontent : buffer.length - (position + 2) < length
  · rw [if_pos hcontent, Piece.splitAt?_drop_of_lt hcontent, List.length_drop]
    rfl
  rw [if_neg hcontent, Piece.splitAt?_drop hcontent]
  dsimp only
  cases Utf8.decode (Piece.octets buffer ⟨position + 2, length⟩) <;> rfl

/-- **A round stays inside the buffer.**  Its pieces end there; and if it reads a string, the octets of
    the string and of its length are what it goes on behind. -/
theorem round_inside (kind : Section) (buffer : Octets) (index position : Nat) :
    (∀ p ∈ (round kind buffer index position).pieces, p.stop ≤ buffer.length) ∧
    ∀ s, (round kind buffer index position).outcome = .ok s →
      (round kind buffer index position).stop = position + (2 + s.utf8ByteSize) ∧
        (round kind buffer index position).stop ≤ buffer.length := by
  unfold round
  dsimp only
  split_ifs with hfield hcontent
  · exact ⟨nofun, nofun⟩
  · refine ⟨fun p hp => ?_, nofun⟩
    rw [List.mem_singleton.1 hp, Piece.stop]
    dsimp only
    omega
  · generalize hlength : ofBigEndian (Piece.octets buffer ⟨position, 2⟩) = length at hcontent ⊢
    have hpieces : ∀ p ∈ ([⟨position, 2⟩, ⟨position + 2, length⟩] : List Piece),
        p.stop ≤ buffer.length := by
      refine List.forall_mem_cons.2 ⟨?_, List.forall_mem_cons.2 ⟨?_, nofun⟩⟩ <;>
        dsimp only [Piece.stop] <;> omega
    split
    · exact ⟨hpieces, nofun⟩
    · rename_i t htext
      refine ⟨hpieces, fun s hs => ?_⟩
      cases hs
      have hsize := congrArg List.length (Utf8.decode_eq_ok_iff.1 htext)
      rw [Utf8.length_encode, Piece.octets, List.length_take, List.length_drop,
        Nat.min_eq_left (Nat.not_lt.1 hcontent)] at hsize
      dsimp only
      omega

/-! ## All rounds -/

theorem stop_le_of_mem_rounds {r : Round} (hr : r ∈ rounds kind buffer count index position)
    {p : Piece} (hp : p ∈ r.pieces) : p.stop ≤ buffer.length := by
  induction count generalizing index position with
  | zero => cases hr
  | succ count ih =>
    have hround := (round_inside kind buffer index position).1
    unfold rounds at hr
    dsimp only at hr
    split at hr
    · rw [List.mem_singleton.1 hr] at hp
      exact hround p hp
    · rcases List.mem_cons.1 hr with rfl | hr
      · exact hround p hp
      · exact ih hr

/-- **The rounds are bounded by what is left of the buffer.**  Each that reads a string takes at least
    two octets of it, and after one that reads none there is no other. -/
theorem length_rounds_le (kind : Section) (buffer : Octets) (count index position : Nat) :
    (rounds kind buffer count index position).length ≤ (buffer.length - position) / 2 + 1 ∧
      (collected (rounds kind buffer count index position)).length ≤
        (buffer.length - position) / 2 := by
  induction count generalizing index position with
  | zero => exact ⟨Nat.zero_le _, Nat.zero_le _⟩
  | succ count ih =>
    unfold rounds
    dsimp only
    split
    · rename_i defect hr
      rw [collected, List.filterMap_cons, hr]
      exact ⟨Nat.le_add_left .., Nat.zero_le _⟩
    · rename_i s hr
      obtain ⟨hstop, hinside⟩ := (round_inside kind buffer index position).2 s hr
      obtain ⟨hmade, hcollected⟩ := ih (index + 1) (round kind buffer index position).stop
      have hmore : collected (round kind buffer index position ::
          rounds kind buffer count (index + 1) (round kind buffer index position).stop) =
          s :: collected
            (rounds kind buffer count (index + 1) (round kind buffer index position).stop) := by
        rw [collected, List.filterMap_cons, hr]
        rfl
      rw [hmore, List.length_cons, List.length_cons]
      omega

/-- What the rounds answer together: the string of the first one and the answer of those behind it. -/
theorem mapM_rounds_succ (kind : Section) (buffer : Octets) (count index position : Nat) :
    (rounds kind buffer (count + 1) index position).mapM Round.outcome =
      (round kind buffer index position).outcome >>= fun s =>
        ((rounds kind buffer count (index + 1) (position + (2 + s.utf8ByteSize))).mapM
          Round.outcome).map (s :: ·) := by
  rw [rounds]
  cases hr : (round kind buffer index position).outcome with
  | error defect =>
    rw [List.mapM_cons, hr]
    rfl
  | ok s =>
    rw [List.mapM_cons, hr, ((round_inside kind buffer index position).2 s hr).1]
    change (List.mapM Round.outcome _ >>= _) = Except.map _ _
    cases (rounds kind buffer count (index + 1)
      (position + (2 + s.utf8ByteSize))).mapM Round.outcome <;> rfl

/-- **Reading strings is the rounds made for them.** -/
theorem decodeStrings_drop (kind : Section) (buffer : Octets) (count index position : Nat) :
    decodeStrings kind count index (buffer.drop position) =
      ((rounds kind buffer count index position).mapM Round.outcome).map
        fun strings => (strings, buffer.drop (position + storedSize strings)) := by
  induction count generalizing index position with
  | zero => rfl
  | succ count ih =>
    rw [decodeStrings, decodeString_drop, mapM_rounds_succ]
    cases hr : (round kind buffer index position).outcome with
    | error defect => rfl
    | ok s =>
      have hstop := ((round_inside kind buffer index position).2 s hr).1
      change decodeStrings kind count (index + 1) (buffer.drop _) >>= _ = Except.map _ (Except.map _ _)
      rw [ih, hstop]
      cases (rounds kind buffer count (index + 1)
          (position + (2 + s.utf8ByteSize))).mapM Round.outcome with
      | error defect => rfl
      | ok more =>
        have hsize : position + storedSize (s :: more) =
            position + (2 + s.utf8ByteSize) + storedSize more := (Nat.add_assoc ..).symm
        change Except.ok (s :: more, _) = Except.ok (s :: more, _)
        rw [hsize]

/-- Strings that are all read lie inside the buffer. -/
theorem size_le_of_rounds (h : position ≤ buffer.length)
    (hread : (rounds kind buffer count index position).mapM Round.outcome = .ok strings) :
    position + storedSize strings ≤ buffer.length := by
  induction count generalizing index position strings with
  | zero =>
    cases hread
    exact h
  | succ count ih =>
    rw [mapM_rounds_succ] at hread
    obtain ⟨s, hs, hread⟩ := bind_eq_ok_iff.1 hread
    obtain ⟨more, hmore, rfl⟩ := map_eq_ok_iff.1 hread
    obtain ⟨hstop, hinside⟩ := (round_inside kind buffer index position).2 s hs
    have hsize : position + storedSize (s :: more) =
        position + (2 + s.utf8ByteSize) + storedSize more := (Nat.add_assoc ..).symm
    rw [hsize]
    exact ih (hstop ▸ hinside) hmore

/-- If all rounds read a string, then their answer is what they have collected. -/
theorem collected_of_mapM {made : List Round} (h : made.mapM Round.outcome = .ok strings) :
    collected made = strings := by
  have hall : List.Forall₂ (fun r s => r.outcome = .ok s) made strings := mapM_eq_ok_iff.1 h
  clear h
  induction hall with
  | nil => rfl
  | cons hr _ ih =>
    rw [collected, List.filterMap_cons, hr]
    exact congrArg _ ih

/-! ## Lists -/

/-- **Reading a list is reading its count and the rounds made for it.** -/
theorem decodeList_eq_rounds (kind : Section) (buffer : Octets) :
    decodeList kind buffer = count? kind buffer >>= fun count =>
      ((rounds kind buffer count 0 4).mapM Round.outcome).map
        fun strings => (strings, buffer.drop (4 + storedSize strings)) := by
  have hwhole : buffer = buffer.drop 0 := rfl
  unfold decodeList count?
  by_cases hcount : buffer.length < 4
  · rw [if_pos hcount, splitAt?_eq_none_iff.2 hcount]
    rfl
  · rw [if_neg hcount, hwhole, Piece.splitAt?_drop hcount, ← hwhole]
    dsimp only
    split
    · exact decodeStrings_drop kind buffer _ 0 4
    · rfl

theorem length_of_count? (h : count? kind buffer = .ok count) :
    4 ≤ buffer.length ∧ count ≤ maxCount := by
  unfold count? at h
  dsimp only at h
  split_ifs at h with hlength hcount
  cases h
  exact ⟨Nat.not_lt.1 hlength, hcount⟩

/-- **Reading a list is bounded by its octets, whatever its count says.**

    * A list is read by reading its count and then making rounds for it, of which each takes the length
      of a string and its octets, until there are as many as the count says or one reads no string.
    * At most as many strings are collected as pairs of octets follow the count, and at most one round
      more is made; no piece that a round takes leaves the buffer.
    * If the list is read, its strings are those collected, the octets used are the four of the count
      and, for each string, the two of its length and its own, and what follows them is left. -/
theorem decodeList_bounded (kind : Section) (buffer : Octets) :
    (decodeList kind buffer = count? kind buffer >>= fun count =>
      ((rounds kind buffer count 0 4).mapM Round.outcome).map
        fun strings => (strings, buffer.drop (4 + storedSize strings))) ∧
    ∀ count, count? kind buffer = .ok count →
      let made := rounds kind buffer count 0 4
      4 ≤ buffer.length ∧ count ≤ 2 ^ 31 - 1 ∧
      made.length ≤ (buffer.length - 4) / 2 + 1 ∧
      (collected made).length ≤ (buffer.length - 4) / 2 ∧
      (∀ r ∈ made, ∀ p ∈ r.pieces, p.start + p.size ≤ buffer.length) ∧
      ∀ strings rest, decodeList kind buffer = .ok (strings, rest) →
        strings = collected made ∧
        4 + (strings.map fun s => 2 + s.utf8ByteSize).sum ≤ buffer.length ∧
        rest = buffer.drop (4 + (strings.map fun s => 2 + s.utf8ByteSize).sum) := by
  refine ⟨decodeList_eq_rounds kind buffer, fun count hcount => ?_⟩
  intro made
  obtain ⟨hfour, hlimit⟩ := length_of_count? hcount
  obtain ⟨hmade, hcollected⟩ := length_rounds_le kind buffer count 0 4
  refine ⟨hfour, hlimit, hmade, hcollected, fun r hr p hp => stop_le_of_mem_rounds hr hp, ?_⟩
  intro strings rest hread
  rw [decodeList_eq_rounds, hcount] at hread
  obtain ⟨strings', hstrings, hrest⟩ := map_eq_ok_iff.1 hread
  cases hrest
  exact ⟨(collected_of_mapM hstrings).symm, size_le_of_rounds hfour hstrings, rfl⟩

/-- A count without a string behind it, however large, is one round. -/
example : (rounds .paths (bigEndian 4 (2 ^ 31 - 1) ++ [0]) (2 ^ 31 - 1) 0 4).length = 1 := by decide

end Split

end Apportion
