/-
  The values of a TOML document.

  A table remembers how it came about, because that decides what may still be
  added to it.
-/

namespace Apportion

namespace Toml

/-- How a table came about. -/
inductive Origin where
  /-- By a header of its own. -/
  | header
  /-- By the header of a table inside it. -/
  | implied
  /-- By a key with dots. -/
  | dotted
  /-- Between braces; it is complete. -/
  | braces
  deriving DecidableEq, Repr

/-- A value. -/
inductive Value where
  | text (s : String)
  | integer (n : Int)
  | real (x : Float)
  | boolean (b : Bool)
  /-- A date, a time of day or both. -/
  | moment
  | array (items : List Value)
  | table (origin : Origin) (entries : List (String × Value))
  /-- Tables under headers with double brackets, the last one apart. -/
  | tables (earlier : List Value) (last : List (String × Value))

/-- The bindings of a table. -/
abbrev Entries := List (String × Value)

/-- Reads a value off the front of a text and leaves the rest; nothing if there is none. -/
abbrev Reader (α : Type) := List Char → Option (α × List Char)

end Toml

end Apportion
