/-
  Stores that give the same answers, save for the wording of failures.

  * `Store.Agree s t`: the requests for a plain path succeed on `s` iff they do on `t`, and then
    answer the same.
  * `Agree.references`, `Agree.descriptors`, `Agree.load`: so do discovery, resolution and the
    loading of splits, which know a store by these requests only.
-/
import Apportion.Plan.Basic
import Apportion.Proofs.Path
import Apportion.Proofs.Sequence

namespace Apportion

open Sequence

/-- The size of a file; none for a directory, whose size no store has to know. -/
def Stat.fileSize? (stat : Stat) : Option UInt64 := if stat.isDirectory then none else some stat.size

namespace Store

variable {σ τ : Type} [Store σ] [Store τ] {s : σ} {t : τ}

/-- All that a reader of the file at a path gets: the size, and the bytes. -/
def readSized (s : σ) (path : Path) : Except Failure (UInt64 × Octets) := do
  let reader ← openRead s path
  return (readerSize reader, readRest s reader)

/-- Stores that answer alike under plain paths: the same requests succeed, with the same values. -/
structure Agree (s : σ) (t : τ) : Prop where
  contains : ∀ path : Path, path.IsPlain → contains s path = contains t path
  stat : ∀ path : Path, path.IsPlain →
    (stat s path).toOption.map Stat.fileSize? = (stat t path).toOption.map Stat.fileSize?
  list : ∀ path : Path, path.IsPlain → (list s path).toOption = (list t path).toOption
  read : ∀ path : Path, path.IsPlain → (readSized s path).toOption = (readSized t path).toOption

namespace Agree

variable {path : Path}

theorem read_bytes (h : Agree s t) (hpath : path.IsPlain) :
    (Store.read s path).toOption = (Store.read t path).toOption := by
  have hbytes : ∀ {ρ : Type} [Store ρ] (r : ρ),
      Store.read r path = readSized r path >>= fun answer => .ok answer.2 := by
    intro ρ _ r
    unfold Store.read readSized
    cases openRead r path <;> rfl
  rw [hbytes, hbytes]
  exact toOption_bind_congr (h.read path hpath) fun _ => rfl

/-! ## Discovery, resolution and splits -/

theorem expand (h : Agree s t) {input : String} (hinput : (⟨input⟩ : Path).IsPlain) :
    (Discovery.expand s input).toOption = (Discovery.expand t input).toOption := by
  -- what is done with an input depends on whether it has the size of a file
  have hexpand : ∀ {ρ : Type} [Store ρ] (r : ρ), (Discovery.expand r input).toOption =
      ((Store.stat r ⟨input⟩).toOption.map Stat.fileSize?).bind fun size? =>
        if size? = none then
          (Store.list r ⟨input⟩).toOption.map fun names =>
            names.map fun name => (Path.join ⟨input⟩ ⟨name⟩).text
        else some [input] := by
    intro ρ _ r
    unfold Discovery.expand
    cases Store.stat r ⟨input⟩ with
    | error failure => rfl
    | ok stat =>
      obtain ⟨size, isDirectory, isDated⟩ := stat
      cases isDirectory with
      | false => rfl
      | true => cases Store.list r ⟨input⟩ <;> rfl
  rw [hexpand, hexpand, h.stat _ hinput, h.list _ hinput]

theorem references (h : Agree s t) {inputs : List String}
    (hinputs : ∀ input ∈ inputs, (⟨input⟩ : Path).IsPlain) :
    (Discovery.references s inputs).toOption = (Discovery.references t inputs).toOption := by
  unfold Discovery.references
  split
  · rfl
  · exact toOption_bind_congr (toOption_mapM_congr fun input hinput => h.expand (hinputs input hinput))
      fun _ => rfl

theorem descriptors (h : Agree s t) (extension : String) {reference : String}
    (hreference : (⟨reference⟩ : Path).IsPlain) :
    (Resolution.descriptors extension s reference).toOption =
      (Resolution.descriptors extension t reference).toOption :=
  toOption_bind_congr (toOption_bind_congr (h.read_bytes hreference) fun _ => rfl) fun _ => rfl

theorem load (h : Agree s t) (hpath : path.IsPlain) :
    (Split.load s path).toOption = (Split.load t path).toOption :=
  toOption_bind_congr (h.read_bytes hpath) fun _ => rfl

end Agree

end Store

end Apportion
