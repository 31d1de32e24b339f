/-
  TOML documents: lines that bind keys and lines that open tables.

  * `Statement.readAll?` reads the lines of a document.
  * `Document.ofStatements?` puts them together into one table.
  * `parse?` does both.
-/
import Apportion.Toml.Element

namespace Apportion

namespace Toml

/-- What a line of a document says. -/
inductive Statement where
  /-- A key has a value, in the table opened last. -/
  | binding (path : List String) (v : Value)
  /-- A table opens. -/
  | table (path : List String)
  /-- Another table of many under one name opens. -/
  | member (path : List String)

namespace Statement

/-- Reads a line that says something. -/
def read? : Reader Statement
  | '[' :: '[' :: cs => do
    let (path, cs) ← readPath? cs
    match cs with
    | ']' :: ']' :: cs =>
      let cs ← endLine? cs
      return (.member path, cs)
    | _ => none
  | '[' :: cs => do
    let (path, cs) ← readPath? cs
    match cs with
    | ']' :: cs =>
      let cs ← endLine? cs
      return (.table path, cs)
    | _ => none
  | cs => do
    let (path, cs) ← readAssigned? cs
    let (v, cs) ← readValue? cs
    let cs ← endLine? cs
    return (.binding path v, cs)

/-- Reads at most `most` lines, of which those with blanks and comments alone say nothing. -/
def readLines? : (most : Nat) → List Char → Option (List Statement)
  | 0, _ => none
  | most + 1, cs =>
    match skipBlanks cs with
    | [] => some []
    | '#' :: cs => do
      let cs ← endLine? ('#' :: cs)
      readLines? most cs
    | '\n' :: cs => readLines? most cs
    | '\r' :: cs => do
      let cs ← newline? ('\r' :: cs)
      readLines? most cs
    | cs => do
      let (s, cs) ← read? cs
      let rest ← readLines? most cs
      return s :: rest

/-- Reads the lines of a document; a byte order mark in front of them does not count. -/
def readAll? (cs : List Char) : Option (List Statement) :=
  let cs := match cs with
    | c :: rest => if c.toNat = 0xFEFF then rest else c :: rest
    | [] => []
  readLines? (cs.length + 1) cs

end Statement

/-- A document as it grows. -/
structure Document where
  entries : Entries
  /-- The keys that lead to the table opened last. -/
  current : List String

namespace Document

/-- An empty document. -/
def empty : Document := ⟨[], []⟩

/-- A document with what one more line says. -/
def add? (d : Document) : Statement → Option Document
  | .binding path v => (within? (define? v true path) d.current d.entries).map fun entries =>
      { d with entries }
  | .table path => (openTable? path d.entries).map fun entries => ⟨entries, path⟩
  | .member path => (openMember? path d.entries).map fun entries => ⟨entries, path⟩

/-- What the lines of a document say together. -/
def ofStatements? (statements : List Statement) : Option Document := statements.foldlM add? empty

end Document

/-- The bindings of a document. -/
def parse? (text : String) : Option Entries := do
  let statements ← Statement.readAll? text.toList
  let d ← Document.ofStatements? statements
  return d.entries

end Toml

end Apportion
