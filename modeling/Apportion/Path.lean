/-
  Paths: how they are spelled, and the components they are made of.

  A path keeps its spelling, which messages repeat and which is what joining
  extends.  Two spellings name the same object of a store when their components
  are the same: slashes at the end or next to each other and inner `.`
  components do not count, while a leading `/`, a leading `.` and every `..` do.

  * `components`: what a spelling is made of.
  * `join`: a path below another one.
  * `parent?`: the path one component up.
-/

namespace Apportion

/-- A path as it is spelled. -/
structure Path where
  /-- The spelling. -/
  text : String
  deriving DecidableEq, Repr

namespace Path

/-- One step of a path. -/
inductive Component where
  /-- The leading slash of an absolute path. -/
  | root
  /-- A leading `.`. -/
  | here
  /-- A `..`. -/
  | up
  /-- A step to an entry of a directory. -/
  | entry (name : String)
  deriving DecidableEq, Repr

/-- How a component is spelled. -/
def Component.text : Component → String
  | .root => "/"
  | .here => "."
  | .up => ".."
  | .entry name => name

/-- An absolute path starts at the root. -/
def isAbsolute (p : Path) : Bool := p.text.toList.head? = some '/'

/-- The component a piece between two slashes stands for; none for an empty piece and for `.`. -/
def Component.ofPiece? (piece : List Char) : Option Component :=
  if piece = [] ∨ piece = ['.'] then none
  else if piece = ['.', '.'] then some .up
  else some (.entry (String.ofList piece))

/-- The components of a path. -/
def components (p : Path) : List Component :=
  let steps := p.text.toList.splitOn '/'
  let lead : List Component :=
    if p.isAbsolute then [.root]
    else if steps.head? = some ['.'] then [.here]
    else []
  lead ++ steps.filterMap Component.ofPiece?

/-- `q` below `p`; an absolute `q` stays as it is. -/
def join (p q : Path) : Path :=
  if q.isAbsolute then q
  else if p.text.isEmpty || p.text.toList.getLast? = some '/' then ⟨p.text ++ q.text⟩
  else ⟨p.text ++ "/" ++ q.text⟩

/-- A piece that is no component of its own where it stands after the first one. -/
def isEmptyStep (piece : List Char) : Bool := piece = [] || piece = ['.']

/-- Pieces without the empty steps at their end. -/
def dropEmptySteps (steps : List (List Char)) : List (List Char) :=
  (steps.reverse.dropWhile isEmptyStep).reverse

/-- The path one component up: the spelling up to the last component, without the
    slashes and `.` before it.  The root and the empty path have none. -/
def parent? (p : Path) : Option Path :=
  match p.text.toList.splitOn '/' with
  | [] => none
  | first :: steps =>
    match dropEmptySteps steps with
    | [] => if p.isAbsolute || first = [] then none else some ⟨""⟩
    | kept =>
      match dropEmptySteps kept.dropLast with
      | [] => some ⟨if p.isAbsolute then "/" else String.ofList first⟩
      | above => some ⟨String.ofList (['/'].intercalate (first :: above))⟩

end Path

end Apportion
