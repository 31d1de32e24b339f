/-
  Which kind of descriptor file a reference asks for.

  * `Path.fileName?`: the last component of a path, if it is an entry; `EndsInFileName`: nothing
    stands behind it in the spelling.
  * `Resolution.descriptors_eq`: what a reference resolves to is decided by how its text ends.
  * `isContainerName_eq`: that is how its file name ends, unless something stands behind the file name
    or the extension reaches over a slash.
  * `descriptors_of_endsInFileName`: references that end in their file name are resolved by it, alike
    for all spellings of one path; `descriptors_of_slash_behind`: others are not.
-/
import Apportion.Proofs.Store.Faithful
import Apportion.Resolution

namespace Apportion

open Sequence

namespace Path

/-- The last component of a path, if it is a step to an entry. -/
def fileName? (p : Path) : Option String :=
  match p.components.getLast? with
  | some (.entry name) => some name
  | _ => none

/-- Behind its last slash a path has its file name, and nothing else. -/
def EndsInFileName (p : Path) : Prop := p.names.getLast? = p.fileName?

instance (p : Path) : Decidable p.EndsInFileName := inferInstanceAs (Decidable (_ = _))

theorem fileName?_of_components {p q : Path} (h : p.components = q.components) :
    p.fileName? = q.fileName? := by
  rw [fileName?, fileName?, h]

theorem EndsInFileName.pieces {p : Path} {name : String} (h : p.EndsInFileName)
    (hname : p.fileName? = some name) :
    ∃ ps, p.text.toList.splitOn '/' = ps ++ [name.toList] := by
  rw [EndsInFileName, hname, names, List.getLast?_map, Option.map_eq_some_iff] at h
  obtain ⟨last, hlast, rfl⟩ := h
  obtain ⟨ps, hps⟩ := List.getLast?_eq_some_iff.1 hlast
  exact ⟨ps, by rw [hps, String.toList_ofList]⟩

/-- Every path has a last piece, so one that ends in its file name has a file name. -/
theorem EndsInFileName.exists_fileName {p : Path} (h : p.EndsInFileName) :
    ∃ name, p.fileName? = some name := by
  rw [← h]
  exact ⟨_, List.getLast?_eq_some_getLast p.names_ne_nil⟩

end Path

namespace Resolution

variable {σ : Type} [Store σ] {s : σ} {c : Catalog} {extension reference other name : String}
  {content : Octets} {b : Bundle}

/-- The wording for a file of the other kind. -/
def kindProblem (container : Bool) : String :=
  "expected a " ++ (if container then "container" else "single") ++ " descriptor file"

/-- **What a reference resolves to**: the descriptors in the file, if it is of the kind that the
    reference asks for. -/
theorem descriptors_eq (hread : Store.read s ⟨reference⟩ = .ok content)
    (hdecode : Bundle.decode content = .ok b) :
    descriptors extension s reference =
      if b.isContainer = isContainerName extension reference then .ok b.descriptors
      else .error (.descriptor reference (kindProblem (isContainerName extension reference))) := by
  have hbundle : bundle s reference = .ok b := by
    refine bind_eq_ok_iff.2 ⟨content, hread, ?_⟩
    rw [hdecode]
    rfl
  unfold descriptors
  rw [hbundle]
  change (if _ then Except.ok b.descriptors else Except.error _) = _
  rfl

theorem descriptors_eq_error {failure : Failure} (hread : Store.read s ⟨reference⟩ = .ok content)
    (hdecode : Bundle.decode content = .error failure) :
    descriptors extension s reference = .error (.descriptor reference failure.message) := by
  have hbundle : bundle s reference = .error (.descriptor reference failure.message) := by
    refine bind_eq_error_iff.2 (Or.inr ⟨content, hread, ?_⟩)
    rw [hdecode]
    rfl
  exact bind_eq_error_iff.2 (Or.inl hbundle)

/-- A reference asks by its file name, if it ends in it and the extension has no slash. -/
theorem isContainerName_eq (hextension : '/' ∉ extension.toList)
    (hend : (⟨reference⟩ : Path).EndsInFileName) (hname : (⟨reference⟩ : Path).fileName? = some name) :
    isContainerName extension reference = isContainerName extension name := by
  obtain ⟨ps, hps⟩ := hend.pieces hname
  rw [isContainerName, isContainerName, Bool.eq_iff_iff, List.isSuffixOf_iff_suffix,
    List.isSuffixOf_iff_suffix]
  exact Text.suffix_iff_of_splitOn hps hextension

theorem read_of_components (h : (⟨reference⟩ : Path).components = (⟨other⟩ : Path).components) :
    (Store.read c ⟨reference⟩).toOption = (Store.read c ⟨other⟩).toOption := by
  have hobject : c.object? ⟨reference⟩ = c.object? ⟨other⟩ := congrArg c.objects.get? h
  refine Option.ext fun content => ?_
  rw [toOption_eq_some_iff, toOption_eq_some_iff, Catalog.read_eq_ok_iff, Catalog.read_eq_ok_iff,
    hobject]

/-- Spellings of one path that ask for the same kind have the same outcome. -/
theorem toOption_descriptors_congr
    (hsame : (⟨reference⟩ : Path).components = (⟨other⟩ : Path).components)
    (hkind : isContainerName extension reference = isContainerName extension other) :
    (descriptors extension c reference).toOption = (descriptors extension c other).toOption := by
  have hbundle : (bundle c reference).toOption = (bundle c other).toOption := by
    refine toOption_bind_congr (read_of_components hsame) fun content => ?_
    cases Bundle.decode content <;> rfl
  refine toOption_bind_congr hbundle fun b => ?_
  rw [hkind]
  dsimp only
  split <;> rfl

/-- **References that end in their file name are resolved by it**, if the extension has no slash.
    A file of the kind that the file name asks for gives its descriptors in order, one of the other
    kind a failure; and two spellings of one path lead to the same descriptors, or both to a
    failure. -/
theorem descriptors_of_endsInFileName (c : Catalog) (hextension : '/' ∉ extension.toList) :
    (∀ reference name content b, (⟨reference⟩ : Path).EndsInFileName →
      (⟨reference⟩ : Path).fileName? = some name → Store.read c ⟨reference⟩ = .ok content →
      Bundle.decode content = .ok b →
      descriptors extension c reference =
        if b.isContainer = isContainerName extension name then .ok b.descriptors
        else .error (.descriptor reference (kindProblem (isContainerName extension name)))) ∧
    ∀ reference other, (⟨reference⟩ : Path).EndsInFileName → (⟨other⟩ : Path).EndsInFileName →
      (⟨reference⟩ : Path).components = (⟨other⟩ : Path).components →
      (descriptors extension c reference).toOption = (descriptors extension c other).toOption := by
  constructor
  · intro reference name content b hend hname hread hdecode
    rw [descriptors_eq hread hdecode, isContainerName_eq hextension hend hname]
  · intro reference other hend hend' hsame
    obtain ⟨name, hname⟩ := hend.exists_fileName
    have hname' := (Path.fileName?_of_components hsame).symm.trans hname
    refine toOption_descriptors_congr hsame ?_
    rw [isContainerName_eq hextension hend hname, isContainerName_eq hextension hend' hname']

/-- A container under two spellings that end in its file name. -/
theorem descriptors_of_endsInFileName_slashes :
    let ds : List Descriptor := [{}, { start := 5 }]
    let c := Catalog.empty.put ⟨"jobs/b.mwu"⟩ (Bundle.container ds).encode
    '/' ∉ ".mwu".toList ∧ (⟨"jobs/b.mwu"⟩ : Path).EndsInFileName ∧
      (⟨"jobs//./b.mwu"⟩ : Path).EndsInFileName ∧ descriptors ".mwu" c "jobs/b.mwu" = .ok ds ∧
      (descriptors ".mwu" c "jobs//./b.mwu").toOption = some ds := by
  intro ds c
  have hextension : '/' ∉ ".mwu".toList := by decide
  have hend : (⟨"jobs/b.mwu"⟩ : Path).EndsInFileName := by decide
  have hend' : (⟨"jobs//./b.mwu"⟩ : Path).EndsInFileName := by decide
  have hread : Store.read c ⟨"jobs/b.mwu"⟩ = .ok (Bundle.container ds).encode :=
    Catalog.read_eq_ok_iff.2 ⟨_, Keyed.get?_put_self .., rfl⟩
  have hdecode : Bundle.decode (Bundle.container ds).encode = .ok (.container ds) :=
    toOption_eq_some_iff.1 (by decide +kernel)
  obtain ⟨houtcome, hspellings⟩ := descriptors_of_endsInFileName c hextension
  have hresolved : descriptors ".mwu" c "jobs/b.mwu" = .ok ds :=
    houtcome _ "b.mwu" _ _ hend (by decide) hread hdecode
  refine ⟨hextension, hend, hend', hresolved, ?_⟩
  rw [← hspellings "jobs/b.mwu" "jobs//./b.mwu" hend hend' (by decide), hresolved]
  rfl

/-- **A slash behind the file name changes the kind asked for.**  The same container is given under
    the path of its file and refused with a slash behind it, though the file name of both has the
    extension. -/
theorem descriptors_of_slash_behind :
    let ds : List Descriptor := [{}, { start := 5 }]
    let c := Catalog.empty.put ⟨"jobs/b.mwu"⟩ (Bundle.container ds).encode
    (⟨"jobs/b.mwu/"⟩ : Path).components = (⟨"jobs/b.mwu"⟩ : Path).components ∧
      (⟨"jobs/b.mwu/"⟩ : Path).fileName? = some "b.mwu" ∧ isContainerName ".mwu" "b.mwu" ∧
      descriptors ".mwu" c "jobs/b.mwu" = .ok ds ∧
      descriptors ".mwu" c "jobs/b.mwu/" =
        .error (.descriptor "jobs/b.mwu/" "expected a single descriptor file") := by
  intro ds c
  refine ⟨by decide, by decide, by decide, ?_, ?_⟩
  · exact toOption_eq_some_iff.1 (by decide +kernel)
  · have h : Store.read c ⟨"jobs/b.mwu/"⟩ = .ok (Bundle.container ds).encode :=
      toOption_eq_some_iff.1 (by decide +kernel)
    have hdecode : Bundle.decode (Bundle.container ds).encode = .ok (.container ds) :=
      toOption_eq_some_iff.1 (by decide +kernel)
    exact (descriptors_eq h hdecode).trans (if_neg (by decide))

end Resolution

end Apportion
