/-
  The names of the entries of a directory, as listings give them: each once and
  in the order of their code points.
-/

namespace Apportion

namespace Store

/-- Names in rising order, each once. -/
def sortNames (names : List String) : List String :=
  names.eraseDups.mergeSort fun a b => a ≤ b

end Store

end Apportion
