/-
  The backends: the stores that there are, as one family.

  * `Backend.Content`: what a backend keeps.
  * Every backend is faithful.
-/
import Apportion.Proofs.Disk.Saving

namespace Apportion

/-- Where files are kept. -/
inductive Backend where
  | memory
  | disk

namespace Backend

/-- What a backend keeps. -/
def Content : Backend → Type
  | memory => Catalog
  | disk => DiskStore

instance : (b : Backend) → Store b.Content
  | memory => inferInstanceAs (Store Catalog)
  | disk => inferInstanceAs (Store DiskStore)

instance : (b : Backend) → Store.Faithful b.Content
  | memory => inferInstanceAs (Store.Faithful Catalog)
  | disk => inferInstanceAs (Store.Faithful DiskStore)

end Backend

end Apportion
