/-
  Trees of directories and files.

  * `Tree.at?`: what names, one below the other, lead to.
  * `Tree.place` puts a file or an empty directory into a directory of a tree.
  * `kind_at?_place`: what `place` changes.
-/
import Apportion.Keyed
import Apportion.Octets

namespace Apportion

/-- A file, or a directory with the trees below its names. -/
inductive Tree where
  | file (content : Octets)
  | directory (entries : List (String × Tree))

/-- What is at a place, without what lies below it. -/
inductive Tree.Kind where
  | file (content : Octets)
  | directory
  deriving DecidableEq, Repr

namespace Tree

/-- What a tree is at its top. -/
def kind : Tree → Kind
  | file content => .file content
  | directory _ => .directory

/-- A file, or a directory with nothing in it. -/
def ofKind : Kind → Tree
  | .file content => .file content
  | .directory => .directory []

/-- What names, one below the other, lead to. -/
def at? : Tree → List String → Option Tree
  | t, [] => some t
  | file _, _ :: _ => none
  | directory entries, name :: steps =>
    match entries.lookup name with
    | some t => t.at? steps
    | none => none

@[simp] theorem kind_ofKind (k : Kind) : (ofKind k).kind = k := by cases k <;> rfl

@[simp] theorem at?_nil (t : Tree) : t.at? [] = some t := by cases t <;> rfl

theorem at?_append (t : Tree) (p q : List String) :
    t.at? (p ++ q) = (t.at? p).bind fun u => u.at? q := by
  induction p generalizing t with
  | nil => simp
  | cons name p ih =>
    cases t with
    | file content => simp [at?]
    | directory entries =>
      simp only [List.cons_append, at?]
      cases entries.lookup name with
      | none => simp
      | some u => simpa using ih u

theorem at?_ofKind_cons (k : Kind) (name : String) (steps : List String) :
    (ofKind k).at? (name :: steps) = none := by
  cases k <;> simp [ofKind, at?]

/-! ## Placing -/

/-- Entries with a file or an empty directory under a name; a directory stays one. -/
def placeHere (name : String) (k : Kind) (entries : List (String × Tree)) : List (String × Tree) :=
  match entries.lookup name with
  | some (directory _) => entries
  | _ => Keyed.bind name (ofKind k) entries

/-- Puts a file or an empty directory under a name into the directory that steps lead to; where
    there is no directory, nothing happens. -/
def place (name : String) (k : Kind) : (steps : List String) → Tree → Tree
  | _, file content => file content
  | [], directory entries => directory (placeHere name k entries)
  | step :: steps, directory entries =>
    match entries.lookup step with
    | some t => directory (Keyed.bind step (t.place name k steps) entries)
    | none => directory entries

theorem kind_at?_placeHere {name : String} {k : Kind} {entries : List (String × Tree)}
    (hk : ((directory entries).at? [name]).map kind = some .directory → k = .directory)
    (q : List String) :
    ((directory (placeHere name k entries)).at? q).map kind =
      if q = [name] then some k else ((directory entries).at? q).map kind := by
  cases q with
  | nil => simp [kind]
  | cons x q =>
    simp only [at?, List.cons.injEq]
    unfold placeHere
    cases hl : entries.lookup name with
    | none =>
      simp only [Keyed.lookup_bind]
      by_cases hx : x = name
      · subst hx
        cases q with
        | nil => simp
        | cons y q => simp [hl, at?_ofKind_cons]
      · simp [hx]
    | some t =>
      cases t with
      | file content =>
        simp only [Keyed.lookup_bind]
        by_cases hx : x = name
        · subst hx
          cases q with
          | nil => simp
          | cons y q => simp [hl, at?, at?_ofKind_cons]
        · simp [hx]
      | directory inner =>
        have hd : k = .directory := hk (by simp [at?, hl, kind])
        subst hd
        by_cases hx : x = name
        · subst hx
          cases q with
          | nil => simp [hl, kind]
          | cons y q => simp
        · simp [hx]

/-- A directory gets a new entry, or a file in it new content; nothing else changes. -/
theorem kind_at?_place {name : String} {k : Kind} {steps : List String} {t : Tree}
    (hd : (t.at? steps).map kind = some .directory)
    (hk : (t.at? (steps ++ [name])).map kind = some .directory → k = .directory)
    (q : List String) :
    ((t.place name k steps).at? q).map kind =
      if q = steps ++ [name] then some k else (t.at? q).map kind := by
  induction steps generalizing t q with
  | nil =>
    cases t with
    | file content => simp [kind] at hd
    | directory entries => exact kind_at?_placeHere hk q
  | cons step steps ih =>
    cases t with
    | file content => simp [at?] at hd
    | directory entries =>
      cases hl : entries.lookup step with
      | none => simp [at?, hl] at hd
      | some u =>
        simp only [at?, hl] at hd
        simp only [List.cons_append, at?, hl] at hk
        simp only [place, hl]
        cases q with
        | nil => simp [kind]
        | cons x q =>
          simp only [at?, Keyed.lookup_bind, List.cons_append, List.cons.injEq]
          by_cases hx : x = step
          · subst hx
            simp only [hl, if_true, true_and]
            exact ih hd hk q
          · simp [hx]

end Tree

end Apportion
