/-
  Disks: a tree of directories and files, seen from a working directory.

  * `Disk.find?`: what is at a location.
  * `Disk.place` puts a file or a directory into a directory, and never takes a
    directory away, which is part of the type for the working directory.
  * `Disk.names`: the entries of a directory.
  * `find?_place`: what `place` changes.
-/
import Apportion.Disk.Tree

namespace Apportion

/-- A place in a tree: the names on the way up to the root, the innermost first. -/
abbrev Location := List String

/-- A tree of directories and files, and the directory that relative paths start from. -/
structure Disk where
  root : Tree
  workingDirectory : Location
  /-- Relative paths start from a directory. -/
  working : (root.at? workingDirectory.reverse).map Tree.kind = some .directory

namespace Disk

/-- A disk with nothing on it. -/
def empty : Disk := ⟨.directory [], [], rfl⟩

instance : Inhabited Disk := ⟨empty⟩

/-- What is at a location. -/
def find? (d : Disk) (loc : Location) : Option Tree.Kind := (d.root.at? loc.reverse).map Tree.kind

@[simp] theorem find?_nil (d : Disk) : d.find? [] = some .directory := by
  have hw := d.working
  cases hr : d.root with
  | directory entries => simp [find?, hr, Tree.kind]
  | file content =>
    rw [hr] at hw
    cases hl : d.workingDirectory.reverse with
    | nil => rw [hl] at hw; simp [Tree.kind] at hw
    | cons name steps => rw [hl] at hw; simp [Tree.at?] at hw

theorem kind_at?_place_reverse {t : Tree} {name : String} {above : Location} {k : Tree.Kind}
    (hd : (t.at? above.reverse).map Tree.kind = some .directory)
    (hk : (t.at? (name :: above).reverse).map Tree.kind = some .directory → k = .directory)
    (loc : Location) :
    ((t.place name k above.reverse).at? loc.reverse).map Tree.kind =
      if loc = name :: above then some k else (t.at? loc.reverse).map Tree.kind := by
  rw [List.reverse_cons] at hk
  rw [Tree.kind_at?_place hd hk]
  simp only [← List.reverse_cons, List.reverse_inj]

/-- Puts a file or an empty directory into a directory.  A directory stays one; where there is no
    directory to put it in, nothing happens. -/
def place (d : Disk) (name : String) (above : Location) (k : Tree.Kind) : Disk :=
  if h : d.find? above = some .directory ∧
      (d.find? (name :: above) = some .directory → k = .directory) then
    { d with
      root := d.root.place name k above.reverse
      working := by
        rw [kind_at?_place_reverse h.1 h.2]
        split
        · rename_i heq
          have hw := d.working
          rw [heq] at hw
          rw [h.2 hw]
        · exact d.working }
  else d

theorem find?_place {d : Disk} {name : String} {above : Location} {k : Tree.Kind}
    (hd : d.find? above = some .directory)
    (hk : d.find? (name :: above) = some .directory → k = .directory) (loc : Location) :
    (d.place name above k).find? loc =
      if loc = name :: above then some k else d.find? loc := by
  rw [place, dif_pos ⟨hd, hk⟩]
  exact kind_at?_place_reverse hd hk loc

theorem workingDirectory_place (d : Disk) (name : String) (above : Location) (k : Tree.Kind) :
    (d.place name above k).workingDirectory = d.workingDirectory := by
  unfold place
  split <;> rfl

/-- What has something at it lies in a directory. -/
theorem find?_above {d : Disk} {name : String} {above : Location}
    (h : (d.find? (name :: above)).isSome) : d.find? above = some .directory := by
  simp only [find?, List.reverse_cons, Tree.at?_append] at h ⊢
  cases ht : d.root.at? above.reverse with
  | none => simp [ht] at h
  | some t =>
    cases t with
    | file content => simp [ht, Tree.at?] at h
    | directory entries => simp [Tree.kind]

/-- The names of the entries of a directory. -/
def names (d : Disk) (loc : Location) : List String :=
  match d.root.at? loc.reverse with
  | some (.directory entries) => entries.map Prod.fst
  | _ => []

/-- The bytes of the file at a location; none if there is no file. -/
def contentAt (d : Disk) (loc : Location) : Octets :=
  match d.find? loc with
  | some (.file content) => content
  | _ => []

/-- Bytes with `data` written over those from `offset` on, and zeros where there were none. -/
def overwrite (content : Octets) (offset : Nat) (data : Octets) : Octets :=
  content.take offset ++ List.replicate (offset - content.length) 0 ++ data ++
    content.drop (offset + data.length)

/-- Writes into the file at a location; the empty write changes nothing. -/
def writeAt (d : Disk) (loc : Location) (offset : Nat) (data : Octets) : Disk :=
  match loc, d.find? loc with
  | name :: above, some (.file content) =>
    if data.isEmpty then d else d.place name above (.file (overwrite content offset data))
  | _, _ => d

end Disk

end Apportion
