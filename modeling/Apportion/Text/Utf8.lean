/-
  Text as UTF-8 octets.

  * `encode` and `decode` between strings and octets; `decode` refuses what is
    not UTF-8 and says where the first fault lies.
  * `Fault`: either a sequence of one to three octets that begins no character
    however it goes on, or a text that ends inside a character.
  * `decode_eq_ok_iff`: exactly the encodings are accepted.
-/
import Apportion.Octets

namespace Apportion

namespace Utf8

/-- Why octets are not UTF-8, and at which octet the first faulty sequence starts. -/
inductive Fault where
  /-- The `length` octets from `start` on are no prefix of a character. -/
  | invalid (length start : Nat)
  /-- The text ends before the character that starts at `start` is complete. -/
  | incomplete (start : Nat)
  deriving DecidableEq, Repr

/-- The wording of a fault. -/
def Fault.message : Fault → String
  | .invalid length start => s!"invalid utf-8 sequence of {length} bytes from index {start}"
  | .incomplete start => s!"incomplete utf-8 byte sequence from index {start}"

/-- The octets of a text. -/
def encode (s : String) : Octets := s.toByteArray.data.toList

/-- An octet that may follow another one inside a character. -/
def isTrailing (b : UInt8) : Bool := 0x80 ≤ b && b ≤ 0xBF

/-- The second octets that may follow a leading octet: those of overlong forms,
    of surrogates and of code points above U+10FFFF are left out. -/
def isSecond (lead b : UInt8) : Bool :=
  if lead = 0xE0 then 0xA0 ≤ b && b ≤ 0xBF
  else if lead = 0xED then 0x80 ≤ b && b ≤ 0x9F
  else if lead = 0xF0 then 0x90 ≤ b && b ≤ 0xBF
  else if lead = 0xF4 then 0x80 ≤ b && b ≤ 0x8F
  else isTrailing b

/-- The number of octets of the character a leading octet starts; zero if it
    starts none. -/
def width (lead : UInt8) : Nat :=
  if lead < 0x80 then 1
  else if 0xC2 ≤ lead && lead ≤ 0xDF then 2
  else if 0xE0 ≤ lead && lead ≤ 0xEF then 3
  else if 0xF0 ≤ lead && lead ≤ 0xF4 then 4
  else 0

/-- The first fault of a text whose octets start at index `i`. -/
def fault? (i : Nat) : Octets → Option Fault
  | [] => none
  | a :: rest =>
    match width a with
    | 0 => some (.invalid 1 i)
    | 1 => fault? (i + 1) rest
    | w =>
      match rest with
      | [] => some (.incomplete i)
      | b :: rest =>
        if !isSecond a b then some (.invalid 1 i)
        else if w = 2 then fault? (i + 2) rest
        else
          match rest with
          | [] => some (.incomplete i)
          | c :: rest =>
            if !isTrailing c then some (.invalid 2 i)
            else if w = 3 then fault? (i + 3) rest
            else
              match rest with
              | [] => some (.incomplete i)
              | d :: rest => if !isTrailing d then some (.invalid 3 i) else fault? (i + 4) rest

/-- The text that octets encode, or their first fault. -/
def decode (o : Octets) : Except Fault String :=
  match String.fromUTF8? ⟨o.toArray⟩ with
  | some s => .ok s
  | none => .error ((fault? 0 o).getD (.invalid 1 0))

theorem decode_eq_ok_iff {o : Octets} {s : String} : decode o = .ok s ↔ o = encode s := by
  unfold decode encode
  constructor
  · intro h
    split at h
    · rename_i t ht
      simp only [Except.ok.injEq] at h
      subst h
      simp only [String.fromUTF8?] at ht
      split at ht
      · simp only [Option.some.injEq] at ht
        subst ht
        simp [String.fromUTF8]
      · cases ht
    · cases h
  · rintro rfl
    have hs : String.fromUTF8? ⟨s.toByteArray.data.toList.toArray⟩ = some s := by
      simp only [String.fromUTF8?, Array.toArray_toList]
      rw [dif_pos s.isValidUTF8]
      rfl
    rw [hs]

theorem decode_encode (s : String) : decode (encode s) = .ok s := decode_eq_ok_iff.2 rfl

/-- The number of octets of a text. -/
theorem length_encode (s : String) : (encode s).length = s.utf8ByteSize := by
  rw [encode, Array.length_toList]; rfl

end Utf8

end Apportion
