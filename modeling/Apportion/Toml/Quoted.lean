/-
  Texts between quotes, in the four styles of TOML: basic texts between double
  quotes, in which a backslash starts an escape, literal texts between single
  quotes, in which nothing does, and both over several lines between triple
  quotes.

  * `read?` reads a text in any of the styles.
  * `Style.write` writes a text in a style, and `write` in the style that suits
    it best.
-/
import Apportion.Toml.Layout
import Apportion.Toml.Value

namespace Apportion

namespace Toml

namespace Quoted

/-! ## Characters -/

/-- A character that stands for itself in a basic text. -/
def isBasic (c : Char) : Bool :=
  isSpace c || c.toNat = 0x21 || (0x23 ≤ c.toNat && c.toNat ≤ 0x5B) ||
    (0x5D ≤ c.toNat && c.toNat ≤ 0x7E) || isForeign c

/-- A character that a literal text may hold. -/
def isLiteral (c : Char) : Bool :=
  c = '\t' || (0x20 ≤ c.toNat && c.toNat ≤ 0x26) || (0x28 ≤ c.toNat && c.toNat ≤ 0x7E) ||
    isForeign c

/-- The value of a hexadecimal digit. -/
def hexDigit? (c : Char) : Option Nat :=
  if '0' ≤ c ∧ c ≤ '9' then some (c.toNat - '0'.toNat)
  else if 'a' ≤ c ∧ c ≤ 'f' then some (c.toNat - 'a'.toNat + 10)
  else if 'A' ≤ c ∧ c ≤ 'F' then some (c.toNat - 'A'.toNat + 10)
  else none

/-- The character with the code point that hexadecimal digits write, after a number `n` written
    by earlier ones. -/
def codePoint? : (n : Nat) → List Char → Option Char
  | n, [] => if n.isValidChar then some (Char.ofNat n) else none
  | n, c :: cs =>
    match hexDigit? c with
    | some d => codePoint? (16 * n + d) cs
    | none => none

/-- The character that a backslash and one letter stand for. -/
def escaped? (c : Char) : Option Char :=
  match c with
  | 'b' => some (Char.ofNat 0x08)
  | 't' => some '\t'
  | 'n' => some '\n'
  | 'f' => some (Char.ofNat 0x0C)
  | 'r' => some '\r'
  | '"' => some '"'
  | '\\' => some '\\'
  | _ => none

/-! ## Reading

The texts read so far are carried along backwards. -/

/-- Reads a basic text up to its closing quote. -/
def readBasic? (done : List Char) : List Char → Option (List Char × List Char)
  | [] => none
  | c :: rest =>
    if c = '"' then some (done.reverse, rest)
    else if c = '\\' then
      match rest with
      | 'u' :: a :: b :: d :: e :: rest =>
        match codePoint? 0 [a, b, d, e] with
        | some ch => readBasic? (ch :: done) rest
        | none => none
      | 'U' :: a :: b :: d :: e :: f :: g :: h :: i :: rest =>
        match codePoint? 0 [a, b, d, e, f, g, h, i] with
        | some ch => readBasic? (ch :: done) rest
        | none => none
      | l :: rest =>
        match escaped? l with
        | some ch => readBasic? (ch :: done) rest
        | none => none
      | [] => none
    else if isBasic c then readBasic? (c :: done) rest
    else none

/-- Reads a literal text up to its closing quote. -/
def readLiteral? (done : List Char) : List Char → Option (List Char × List Char)
  | [] => none
  | c :: rest =>
    if c = '\'' then some (done.reverse, rest)
    else if isLiteral c then readLiteral? (c :: done) rest
    else none

/-- Closes a text over several lines: behind three quotes up to two more are the last of the
    text. -/
def close (quote : Char) (done : List Char) : List Char → List Char × List Char
  | a :: b :: rest =>
    if a = quote then
      if b = quote then ((quote :: quote :: done).reverse, rest)
      else ((quote :: done).reverse, b :: rest)
    else (done.reverse, a :: b :: rest)
  | [a] => if a = quote then ((quote :: done).reverse, []) else (done.reverse, [a])
  | [] => (done.reverse, [])

/-- Reads a basic text over several lines.  After a backslash at the end of a line, all blanks and
    line ends are `folding`, up to the next other character. -/
def readLines? (folding : Bool) (done : List Char) : List Char → Option (List Char × List Char)
  | [] => none
  | c :: rest =>
    if folding && (isSpace c || c = '\n') then readLines? true done rest
    else if c = '\r' then
      match rest with
      | '\n' :: rest => readLines? folding (if folding then done else '\n' :: done) rest
      | _ => none
    else if c = '\n' then readLines? false ('\n' :: done) rest
    else if c = '"' then
      match rest with
      | '"' :: '"' :: rest => some (close '"' done rest)
      | rest => readLines? false ('"' :: done) rest
    else if c = '\\' then
      if (newline? (skipBlanks rest)).isSome then readLines? true done rest
      else
        match rest with
        | 'u' :: a :: b :: d :: e :: rest =>
          match codePoint? 0 [a, b, d, e] with
          | some ch => readLines? false (ch :: done) rest
          | none => none
        | 'U' :: a :: b :: d :: e :: f :: g :: h :: i :: rest =>
          match codePoint? 0 [a, b, d, e, f, g, h, i] with
          | some ch => readLines? false (ch :: done) rest
          | none => none
        | l :: rest =>
          match escaped? l with
          | some ch => readLines? false (ch :: done) rest
          | none => none
        | [] => none
    else if isBasic c then readLines? false (c :: done) rest
    else none

/-- Reads a literal text over several lines. -/
def readLiteralLines? (done : List Char) : List Char → Option (List Char × List Char)
  | [] => none
  | c :: rest =>
    if c = '\r' then
      match rest with
      | '\n' :: rest => readLiteralLines? ('\n' :: done) rest
      | _ => none
    else if c = '\n' then readLiteralLines? ('\n' :: done) rest
    else if c = '\'' then
      match rest with
      | '\'' :: '\'' :: rest => some (close '\'' done rest)
      | rest => readLiteralLines? ('\'' :: done) rest
    else if isLiteral c then readLiteralLines? (c :: done) rest
    else none

/-- A text without the line end at its front. -/
def skipNewline (cs : List Char) : List Char := (newline? cs).getD cs

/-- Reads a text on one line, as keys are written. -/
def readLine? : Reader String
  | '"' :: rest => (readBasic? [] rest).map fun (cs, rest) => (String.ofList cs, rest)
  | '\'' :: rest => (readLiteral? [] rest).map fun (cs, rest) => (String.ofList cs, rest)
  | _ => none

/-- Reads a text in any style. -/
def read? : Reader String
  | '"' :: '"' :: '"' :: rest =>
    (readLines? false [] (skipNewline rest)).map fun (cs, rest) => (String.ofList cs, rest)
  | '\'' :: '\'' :: '\'' :: rest =>
    (readLiteralLines? [] (skipNewline rest)).map fun (cs, rest) => (String.ofList cs, rest)
  | cs => readLine? cs

/-! ## Writing -/

/-- The four styles. -/
inductive Style where
  | basic
  | literal
  | basicLines
  | literalLines
  deriving DecidableEq, Repr

/-- The longest run of a character in a text, of which a run of `run` stands in front. -/
def longestRun (c : Char) : (run : Nat) → List Char → Nat
  | run, [] => run
  | run, d :: cs => if d = c then longestRun c (run + 1) cs else max run (longestRun c 0 cs)

/-- A control character that only an escape can write. -/
def isControl (c : Char) : Bool :=
  c ≠ '\t' && c ≠ '\n' && (c.toNat ≤ 0x1F || c.toNat = 0x7F)

/-- The style that shows a text best: between double quotes if nothing in it needs an escape,
    literal if that can hold it, between triple quotes if those can, and with escapes otherwise. -/
def styleFor (cs : List Char) : Style :=
  let control := cs.any isControl
  let backslash := cs.contains '\\'
  let lines := cs.contains '\n'
  let doubles := longestRun '"' 0 cs
  let singles := longestRun '\'' 0 cs
  if !control && !backslash && !lines && doubles = 0 then .basic
  else if !control && !lines && singles = 0 then .literal
  else if !control && !backslash && doubles ≤ 2 then .basicLines
  else if !control && singles ≤ 2 then .literalLines
  else if lines then .basicLines
  else .basic

/-- A hexadecimal digit. -/
def hexDigit (n : Nat) : Char := if n < 10 then Char.ofNat (0x30 + n) else Char.ofNat (0x37 + n)

/-- The escape of a control character. -/
def escapeControl (c : Char) : List Char :=
  if c = Char.ofNat 0x08 then ['\\', 'b']
  else if c = '\t' then ['\\', 't']
  else if c = '\n' then ['\\', 'n']
  else if c = Char.ofNat 0x0C then ['\\', 'f']
  else if c = '\r' then ['\\', 'r']
  else ['\\', 'u', '0', '0', hexDigit (c.toNat / 16), hexDigit (c.toNat % 16)]

/-- A text with escapes.  Line ends stay if `lines` are allowed, and so do up to `quotes` double
    quotes in a row, of which `run` stand in front. -/
def escape (lines : Bool) (quotes : Nat) : (run : Nat) → List Char → List Char
  | _, [] => []
  | run, c :: cs =>
    if c = '"' then
      if run < quotes then '"' :: escape lines quotes (run + 1) cs
      else '\\' :: '"' :: escape lines quotes 0 cs
    else if c = '\\' then '\\' :: '\\' :: escape lines quotes 0 cs
    else if c = '\n' && lines then '\n' :: escape lines quotes 0 cs
    else if c.toNat ≤ 0x1F || c.toNat = 0x7F then escapeControl c ++ escape lines quotes 0 cs
    else c :: escape lines quotes 0 cs

/-- The line end behind the opening quotes of a text that has lines, which is not part of it. -/
def opening (cs : List Char) : List Char := if cs.contains '\n' then ['\n'] else []

/-- A text in a style. -/
def Style.write (cs : List Char) : Style → List Char
  | .basic => '"' :: escape false 0 0 cs ++ ['"']
  | .literal => '\'' :: cs ++ ['\'']
  | .basicLines => "\"\"\"".toList ++ opening cs ++ escape true 2 0 cs ++ "\"\"\"".toList
  | .literalLines => "'''".toList ++ opening cs ++ cs ++ "'''".toList

/-- A text in the style that suits it best. -/
def write (s : String) : List Char := (styleFor s.toList).write s.toList

end Quoted

end Toml

end Apportion
