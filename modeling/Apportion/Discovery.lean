/-
  Discovery: the references that inputs stand for.

  * `references`: a file stands for itself, a directory for its entries.
-/
import Apportion.Store.Basic

namespace Apportion

namespace Discovery

variable {σ : Type} [Store σ]

/-- The references that one input stands for. -/
def expand (s : σ) (input : String) : Except Failure (List String) := do
  let stat ← Store.stat s ⟨input⟩
  if stat.isDirectory then
    let names ← Store.list s ⟨input⟩
    return names.map fun name => (Path.join ⟨input⟩ ⟨name⟩).text
  else return [input]

/-- The references that inputs stand for, in order; there has to be one. -/
def references (s : σ) (inputs : List String) : Except Failure (List String) :=
  if inputs.isEmpty then .error .noInput
  else do
    let found ← inputs.mapM (expand s)
    if found.flatten.isEmpty then throw .noInput
    else return found.flatten

end Discovery

end Apportion
