/-
  Resolution: the descriptors that a reference leads to, and descriptor files
  in a store.

  * `isContainerName`: a reference that ends in the container extension names a
    container, any other a single descriptor.
  * `descriptors` reads what a reference names, which has to be of that kind.
  * `Bundle.save` writes a descriptor file.
-/
import Apportion.Descriptor.Codec
import Apportion.Store.Basic

namespace Apportion

namespace Resolution

/-- Whether a reference names a container. -/
def isContainerName (extension reference : String) : Bool :=
  extension.toList.isSuffixOf reference.toList

variable {σ : Type} [Store σ]

/-- The bundle in the file a reference names. -/
def bundle (s : σ) (reference : String) : Except Failure Bundle := do
  let content ← Store.read s ⟨reference⟩
  match Bundle.decode content with
  | .ok bundle => return bundle
  | .error failure => throw (.descriptor reference failure.message)

/-- The descriptors in the file a reference names. -/
def descriptors (extension : String) (s : σ) (reference : String) :
    Except Failure (List Descriptor) := do
  let bundle ← bundle s reference
  let container := isContainerName extension reference
  if bundle.isContainer = container then return bundle.descriptors
  else
    let kind := if container then "container" else "single"
    throw (.descriptor reference s!"expected a {kind} descriptor file")

end Resolution

/-- Writes a descriptor file. -/
def Bundle.save {σ : Type} [Store σ] (b : Bundle) (s : σ) (path : Path) : Except Failure Unit × σ :=
  Store.save s path b.encode

end Apportion
