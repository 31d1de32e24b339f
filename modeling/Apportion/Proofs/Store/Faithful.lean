/-
  Stores that give back what was saved.

  * `Store.Faithful`: a saved file is read back, and the files under other plain paths stay.
  * `Catalog`: keeping files under their components is faithful.
-/
import Apportion.Catalog
import Apportion.Proofs.Path
import Apportion.Proofs.Sequence

namespace Apportion

/-- What is saved under a plain path is read there, and changes nothing under other ones. -/
class Store.Faithful (σ : Type) [Store σ] : Prop where
  read_of_save {s s' : σ} {path : Path} {content : Octets} : path.IsPlain →
    save s path content = (.ok (), s') → read s' path = .ok content
  read_of_save_of_ne {s s' : σ} {path other : Path} {content kept : Octets} : path.IsPlain →
    other.IsPlain → other ≠ path → save s path content = (.ok (), s') →
    read s other = .ok kept → read s' other = .ok kept

namespace Catalog

variable {c c' : Catalog} {path : Path} {content : Octets}

theorem read_eq_ok_iff :
    Store.read c path = .ok content ↔ ∃ o, c.object? path = some o ∧ o.content = content := by
  change c.openRead path >>= (fun reader => .ok reader.rest) = _ ↔ _
  unfold openRead
  cases c.object? path with
  | none =>
    constructor
    · intro h
      cases h
    · rintro ⟨o, ho, -⟩
      cases ho
  | some o =>
    constructor
    · intro h
      cases h
      exact ⟨o, rfl, rfl⟩
    · rintro ⟨o', ho, rfl⟩
      cases ho
      rfl

instance : Store.Faithful Catalog where
  read_of_save {c c' path content} _ h := by
    cases h
    exact read_eq_ok_iff.2 ⟨.ofContent content, Keyed.get?_put_self .., rfl⟩
  read_of_save_of_ne {c c' path other content kept} hpath hother hne h hkept := by
    cases h
    obtain ⟨o, ho, hcontent⟩ := read_eq_ok_iff.1 hkept
    have hkey : other.components ≠ path.components :=
      fun e => hne (hother.eq_of_components hpath e)
    exact read_eq_ok_iff.2 ⟨o, (Keyed.get?_put_of_ne _ _ hkey).trans ho, hcontent⟩

end Catalog

end Apportion
