/-
  What stands between the values of a TOML document: blanks, comments and the
  ends of lines.

  * `skipBlanks` skips spaces and tabs.
  * `endLine?` ends a line, after blanks and a comment.
  * `skipLayout?` skips blanks, comments and any number of lines.
-/

namespace Apportion

namespace Toml

/-- A space or a tab. -/
def isSpace (c : Char) : Bool := c = ' ' || c = '\t'

/-- A character beyond ASCII. -/
def isForeign (c : Char) : Bool := 0x80 ≤ c.toNat

/-- A character of a comment: a tab or anything printable. -/
def isCommentChar (c : Char) : Bool := c = '\t' || (0x20 ≤ c.toNat && c.toNat ≤ 0x7E) || isForeign c

/-- A text without the spaces and tabs at its front. -/
def skipBlanks (cs : List Char) : List Char := cs.dropWhile isSpace

/-- What follows the end of a line. -/
def newline? : List Char → Option (List Char)
  | '\n' :: rest => some rest
  | '\r' :: '\n' :: rest => some rest
  | _ => none

/-- A text without the comment at its front. -/
def skipComment : List Char → List Char
  | '#' :: rest => rest.dropWhile isCommentChar
  | cs => cs

/-- What follows a line of which only blanks and a comment are left. -/
def endLine? (cs : List Char) : Option (List Char) :=
  match skipComment (skipBlanks cs) with
  | [] => some []
  | cs => newline? cs

/-- What follows blanks, comments and ends of lines.  A comment goes up to the end of its line,
    and a carriage return is followed by a line feed. -/
def skipLayout? : (inComment : Bool) → List Char → Option (List Char)
  | false, [] => some []
  | true, [] => none
  | inComment, c :: rest =>
    if c = '\n' then skipLayout? false rest
    else if c = '\r' then
      match rest with
      | '\n' :: rest => skipLayout? false rest
      | _ => none
    else if inComment then
      if isCommentChar c then skipLayout? true rest else none
    else if isSpace c then skipLayout? false rest
    else if c = '#' then skipLayout? true rest
    else some (c :: rest)

end Toml

end Apportion
