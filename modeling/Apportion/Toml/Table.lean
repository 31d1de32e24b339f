/-
  Tables of a TOML document as they grow.  A key is bound once.  A table under a
  header is opened once, by that header; a table that a key with dots has made
  grows by such keys only, and one between braces not at all.

  * `define?` binds a key with dots, `openTable?` and `openMember?` enter a
    header, and `within?` does something in the table that a header entered.
-/
import Apportion.Keyed
import Apportion.Toml.Value

namespace Apportion

namespace Toml

open Keyed (bind)

/-- Binds the last of a path of keys inside the tables named by the others, which are made where
    they are missing.  The table it goes into has to be `apt`: the one the path starts from, or
    one that a key with dots has made. -/
def define? (v : Value) : (apt : Bool) → List String → Entries → Option Entries
  | _, [], _ => none
  | apt, [key], entries =>
    if apt && (entries.lookup key).isNone then some (bind key v entries) else none
  | _, key :: path, entries =>
    match entries.lookup key with
    | none => (define? v true path []).map fun inner => bind key (.table .dotted inner) entries
    | some (.table .dotted inner) =>
      (define? v true path inner).map fun inner => bind key (.table .dotted inner) entries
    | some (.table .implied inner) =>
      (define? v false path inner).map fun inner => bind key (.table .implied inner) entries
    | some (.tables earlier last) =>
      (define? v false path last).map fun last => bind key (.tables earlier last) entries
    | some _ => none

/-- Changes what the last of a path of keys is bound to, inside the tables that headers or keys
    with dots have made, and where they are missing in new ones. -/
def enter? (change : Option Value → Option Value) : List String → Entries → Option Entries
  | [], _ => none
  | [key], entries => (change (entries.lookup key)).map fun v => bind key v entries
  | key :: path, entries =>
    match entries.lookup key with
    | none => (enter? change path []).map fun inner => bind key (.table .implied inner) entries
    | some (.table .braces _) => none
    | some (.table origin inner) =>
      (enter? change path inner).map fun inner => bind key (.table origin inner) entries
    | some (.tables earlier last) =>
      (enter? change path last).map fun last => bind key (.tables earlier last) entries
    | some _ => none

/-- Opens the table of a header. -/
def openTable? : List String → Entries → Option Entries :=
  enter? fun
    | none => some (.table .header [])
    | some (.table .implied entries) => some (.table .header entries)
    | some _ => none

/-- Opens another table of a header with double brackets. -/
def openMember? : List String → Entries → Option Entries :=
  enter? fun
    | none => some (.tables [] [])
    | some (.tables earlier last) => some (.tables (earlier ++ [.table .header last]) [])
    | some _ => none

/-- Does something inside the table that a header has opened. -/
def within? (act : Entries → Option Entries) : List String → Entries → Option Entries
  | [], entries => act entries
  | key :: path, entries =>
    match entries.lookup key with
    | some (.table origin inner) =>
      (within? act path inner).map fun inner => bind key (.table origin inner) entries
    | some (.tables earlier last) =>
      (within? act path last).map fun last => bind key (.tables earlier last) entries
    | _ => none

/-- The table between braces with the given bindings. -/
def braces? (bindings : List (List String × Value)) : Option Value :=
  (bindings.foldlM (fun entries (path, v) => define? v true path entries) []).map (.table .braces)

end Toml

end Apportion
