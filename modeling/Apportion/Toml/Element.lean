/-
  Keys and values of a TOML document as they are written.

  * `readPath?` reads a key, simple or with dots.
  * `readValue?` reads a value; arrays and tables between braces hold values.
  Keys with more than 79 parts and values nested more than 79 deep are refused.
-/
import Apportion.Toml.Quoted
import Apportion.Toml.Scalar
import Apportion.Toml.Table

namespace Apportion

namespace Toml

/-- The largest number of parts of a key and of levels of a value. -/
def maxDepth : Nat := 79

/-! ## Keys -/

/-- A character of a key without quotes. -/
def isBare (c : Char) : Bool := c.isAlphanum || c = '_' || c = '-'

/-- Reads a part of a key. -/
def readKey? : Reader String := fun cs =>
  match cs with
  | '"' :: _ | '\'' :: _ => Quoted.readLine? cs
  | cs =>
    match cs.takeWhile isBare with
    | [] => none
    | key => some (String.ofList key, cs.dropWhile isBare)

/-- Reads a key of at most `most` parts with dots between them. -/
def readParts? : (most : Nat) → Reader (List String)
  | 0, _ => none
  | most + 1, cs => do
    let (key, cs) ← readKey? (skipBlanks cs)
    match skipBlanks cs with
    | '.' :: cs =>
      let (path, cs) ← readParts? most cs
      return (key :: path, cs)
    | cs => return ([key], cs)

/-- Reads a key with the blanks around it. -/
def readPath? : Reader (List String) := readParts? maxDepth

/-- Reads a key, an equals sign and the blanks behind it. -/
def readAssigned? : Reader (List String) := fun cs => do
  let (path, cs) ← readPath? cs
  match cs with
  | '=' :: cs => return (path, skipBlanks cs)
  | _ => none

/-! ## Values -/

/-- Reads the rest of an array: at most `most` items with commas between them and a bracket
    behind them. -/
def readItems? (item? : Reader Value) : (most : Nat) → Reader (List Value)
  | 0, _ => none
  | most + 1, cs => do
    match ← skipLayout? false cs with
    | ']' :: cs => return ([], cs)
    | cs =>
      let (v, cs) ← item? cs
      match ← skipLayout? false cs with
      | ',' :: cs =>
        let (vs, cs) ← readItems? item? most cs
        return (v :: vs, cs)
      | ']' :: cs => return ([v], cs)
      | _ => none

/-- Reads the rest of a table between braces: at most `most` bindings with commas between them
    and a brace behind them. -/
def readBindings? (item? : Reader Value) : (most : Nat) → Reader (List (List String × Value))
  | 0, _ => none
  | most + 1, cs => do
    let (path, cs) ← readAssigned? cs
    let (v, cs) ← item? cs
    match skipBlanks cs with
    | ',' :: cs =>
      let (bindings, cs) ← readBindings? item? most cs
      return ((path, v) :: bindings, cs)
    | '}' :: cs => return ([(path, v)], cs)
    | _ => none

/-- Reads a value with at most `depth` levels of arrays and tables. -/
def readValueWithin? : (depth : Nat) → Reader Value
  | depth, cs =>
    match cs with
    | '[' :: cs =>
      match depth with
      | 0 => none
      | depth + 1 =>
        (readItems? (readValueWithin? depth) (cs.length + 1) cs).map fun (vs, cs) => (.array vs, cs)
    | '{' :: cs =>
      match depth with
      | 0 => none
      | depth + 1 =>
        match skipBlanks cs with
        | '}' :: cs => some (.table .braces [], cs)
        | cs => do
          let (bindings, cs) ← readBindings? (readValueWithin? depth) (cs.length + 1) cs
          let v ← braces? bindings
          return (v, cs)
    | '"' :: _ | '\'' :: _ => (Quoted.read? cs).map fun (s, cs) => (.text s, cs)
    | cs => Scalar.read? cs

/-- Reads a value. -/
def readValue? : Reader Value := readValueWithin? maxDepth

end Toml

end Apportion
