/-
  Describing sources, and resolving what was described.

  * `create_of_grows`: a store opened on what a disk has grown to is the same store there.
  * `bundleOf`: the bundle that sources make up under a name; `Refused`: why there is none.
  * `bundleOf_eq_error_iff`, `bundleOf_eq_ok`: the bundle is refused for these reasons, and has the
    descriptors of the sources in the kind of file that the name asks for otherwise.
  * `describe_resolves`: a refused description leaves the disk alone, and the name of one that was
    written resolves to the descriptors of its sources.
-/
import Apportion.Proofs.Commands
import Apportion.Proofs.Descriptor.Canonical
import Apportion.Proofs.Descriptor.Notation
import Apportion.Proofs.Resolution

namespace Apportion

open Sequence

/-! ## Opening a store again -/

namespace DiskStore

open Disk

variable {s s' : DiskStore} {settings : StorageSettings} {disk disk' : Disk} {path : Path}
  {content : Octets} {failure : Failure}

theorem contains_of_grows {loc : Location} {p : Path} (h : Grows loc disk disk')
    (hthere : disk.contains p) : disk'.contains p := by
  obtain ⟨⟨l, k⟩, hlocate⟩ := contains_iff.1 hthere
  cases k with
  | directory => exact contains_iff.2 ⟨_, h.locate_directory hlocate⟩
  | file content =>
    obtain ⟨content', hlocate', -⟩ := h.locate hlocate
    exact contains_iff.2 ⟨_, hlocate'⟩

/-- **A store is opened again** on what its disk has grown to. -/
theorem create_of_grows {loc : Location} (h : create settings disk = (.ok s, s.disk))
    (hgrows : Grows loc s.disk disk') :
    create settings disk' = (.ok { s with disk := disk' }, disk') := by
  unfold create at h
  split at h
  · rename_i hthere
    cases h
    rw [create, if_pos (contains_of_grows hgrows hthere)]
    rfl
  · split at h
    · rename_i made hmade
      cases h
      by_cases hempty : settings.basePath.text = ""
      · -- nothing is ever at the empty path, and nothing is made for it
        have hnowhere : disk'.contains settings.basePath = false := by
          rw [Disk.contains, Disk.locate, Disk.checkSpelling, hempty]
          rfl
        have hnothing : disk'.makeDirectories settings.basePath = (.ok (), disk') := by
          obtain ⟨parents, hlineage⟩ := exists_lineage settings.basePath
          rw [Disk.makeDirectories, hlineage, makeLineage, if_pos (by rw [hempty]; rfl)]
        rw [create, if_neg (by rw [hnowhere]; decide), hnothing]
        rfl
      · obtain ⟨l, hlocate⟩ := locate_of_makeDirectories hempty hmade
        have hthere : made.contains settings.basePath := contains_iff.2 ⟨_, hlocate⟩
        rw [create, if_pos (contains_of_grows hgrows hthere)]
        rfl
    · cases h

/-! ## What a disk refuses -/

theorem ofSystem_of_create (h : create settings disk = (.error failure, disk')) :
    ∃ path problem error, failure = .ofSystem path problem error := by
  unfold create at h
  split at h
  · cases h
  · split at h
    · cases h
    · cases h
      exact ⟨_, _, _, rfl⟩

theorem ofSystem_of_makeParent {full : Path} (h : s.makeParent full = (.error failure, s')) :
    ∃ path problem error, failure = .ofSystem path problem error := by
  unfold makeParent at h
  split at h
  · cases h
  · split at h
    · cases h
    · split at h
      · cases h
      · cases h
        exact ⟨_, _, _, rfl⟩

/-- A file is not saved for no other reason than that the system does not let it be opened. -/
theorem ofSystem_of_save (h : Store.save s path content = (.error failure, s')) :
    ∃ path problem error, failure = .ofSystem path problem error := by
  unfold Store.save at h
  split at h
  · rename_i hopen
    cases h
    change s.openWrite path = _ at hopen
    unfold openWrite at hopen
    dsimp only at hopen
    split at hopen
    · rename_i hparent
      cases hopen
      exact ofSystem_of_makeParent hparent
    · split at hopen
      · cases hopen
        exact ⟨_, _, _, rfl⟩
      · cases hopen
  · cases h

end DiskStore

theorem Failure.ofSystem_ne_descriptor (path : Path) (problem : String) (error : SystemError)
    (reference reason : String) : ofSystem path problem error ≠ .descriptor reference reason := by
  unfold ofSystem
  split <;> exact nofun

/-! ## What is described -/

namespace Commands

open Descriptor (Denotes)

/-- The bundle that sources make up under a name. -/
def bundleOf (extension output : String) (sources : List String) : Except Failure Bundle :=
  sources.mapM Descriptor.parse >>= bundleFor extension output

/-- Why sources make up no bundle under a name. -/
inductive Refused (extension output : String) : List String → Failure → Prop
  /-- A source is unfit; the first such source decides. -/
  | source {before source after failure} : (∀ s ∈ before, ∃ d, Descriptor.parse s = .ok d) →
      Descriptor.parse source = .error failure →
      Refused extension output (before ++ source :: after) failure
  /-- The name is that of a single descriptor, and there are none or several. -/
  | count {sources} : (∀ s ∈ sources, ∃ d, Descriptor.parse s = .ok d) →
      ¬ extension.toList <:+ output.toList → sources.length ≠ 1 →
      Refused extension output sources (.descriptor output
        (toString sources.length ++ " sources given; use the '" ++ extension ++
          "' extension for a container"))

variable {extension output : String} {sources : List String} {ds : List Descriptor} {b : Bundle}
  {failure : Failure}

theorem isContainerName_iff : Resolution.isContainerName extension output ↔
    extension.toList <:+ output.toList := by
  rw [Resolution.isContainerName, List.isSuffixOf_iff_suffix]

theorem bundleFor_eq_ok (h : bundleFor extension output ds = .ok b) :
    b.descriptors = ds ∧ b.isContainer = Resolution.isContainerName extension output := by
  unfold bundleFor at h
  split at h
  · rename_i hkind
    cases h
    exact ⟨rfl, hkind.symm⟩
  · rename_i hkind
    split at h
    · cases h
      exact ⟨rfl, (eq_false_of_ne_true hkind).symm⟩
    · cases h

theorem bundleFor_eq_error_iff : bundleFor extension output ds = .error failure ↔
    ¬ extension.toList <:+ output.toList ∧ ds.length ≠ 1 ∧
      failure = .descriptor output (toString ds.length ++ " sources given; use the '" ++ extension ++
        "' extension for a container") := by
  rw [← isContainerName_iff]
  unfold bundleFor
  by_cases hkind : Resolution.isContainerName extension output
  · rw [if_pos hkind]
    exact ⟨nofun, fun h => absurd hkind h.1⟩
  · rw [if_neg hkind]
    split
    · exact ⟨nofun, fun h => absurd rfl h.2.1⟩
    · rename_i hmany
      have hcount : ds.length ≠ 1 := fun h => by
        obtain ⟨d, rfl⟩ := List.length_eq_one_iff.1 h
        exact hmany d rfl
      exact ⟨fun h => ⟨hkind, hcount, (Except.error.inj h).symm⟩, fun h => congrArg _ h.2.2.symm⟩

/-- **Sources make up no bundle** iff one of them is unfit or their number needs a container. -/
theorem bundleOf_eq_error_iff : bundleOf extension output sources = .error failure ↔
    Refused extension output sources failure := by
  rw [bundleOf, bind_eq_error_iff, mapM_eq_error_iff]
  constructor
  · rintro (⟨before, source, after, rfl, hbefore, hsource⟩ | ⟨ds, hds, hfor⟩)
    · exact .source hbefore hsource
    · obtain ⟨hkind, hcount, rfl⟩ := bundleFor_eq_error_iff.1 hfor
      have hlength := (mapM_eq_ok_iff.1 hds).length_eq
      rw [← hlength] at hcount ⊢
      exact .count (exists_mapM_eq_ok_iff.1 ⟨ds, hds⟩) hkind hcount
  · rintro (⟨hbefore, hsource⟩ | ⟨hall, hkind, hcount⟩)
    · exact Or.inl ⟨_, _, _, rfl, hbefore, hsource⟩
    · obtain ⟨ds, hds⟩ := exists_mapM_eq_ok_iff.2 hall
      have hlength := (mapM_eq_ok_iff.1 hds).length_eq
      rw [hlength] at hcount ⊢
      exact Or.inr ⟨ds, hds, bundleFor_eq_error_iff.2 ⟨hkind, hcount, rfl⟩⟩

theorem Refused.exists_descriptor (h : Refused extension output sources failure) :
    ∃ reference problem, failure = .descriptor reference problem := by
  cases h with
  | source _ hsource => exact ⟨_, Descriptor.parse_eq_error hsource⟩
  | count => exact ⟨_, _, rfl⟩

theorem fits_of_parse {source : String} {d : Descriptor} (h : Descriptor.parse source = .ok d)
    (hsize : source.utf8ByteSize < 2 ^ 64) : d.Fits := by
  have hpath : ∀ path ∈ d.source, path.utf8ByteSize ≤ source.utf8ByteSize := by
    rintro path hpath
    cases Descriptor.parse_eq_ok_iff.1 h with
    | whole =>
      cases hpath
      exact Nat.le_refl _
    | range =>
      cases hpath
      simp only [String.utf8ByteSize_append]
      omega
  have hproperties : (Descriptor.Listing.of d).entries = [] := by
    cases Descriptor.parse_eq_ok_iff.1 h <;> rfl
  refine ⟨fun path hmem => Nat.lt_of_le_of_lt (hpath path hmem) hsize, ?_, ?_⟩
  · rw [hproperties]
    decide
  · rw [hproperties]
    exact nofun

/-- The bundle of sources whose number and lengths fit in eight octets is read back. -/
theorem fits_of_bundleOf (hcount : sources.length < 2 ^ 64)
    (hsizes : ∀ source ∈ sources, source.utf8ByteSize < 2 ^ 64)
    (hparsed : List.Forall₂ (fun source d => Descriptor.parse source = .ok d) sources b.descriptors) :
    b.Fits := by
  have hfits : ∀ d ∈ b.descriptors, d.Fits := by
    intro d hd
    obtain ⟨i, hi, rfl⟩ := List.getElem_of_mem hd
    have hi' : i < sources.length := hparsed.length_eq ▸ hi
    exact fits_of_parse (hparsed.get hi' hi) (hsizes _ (List.getElem_mem hi'))
  cases b with
  | single d => exact hfits d (List.mem_singleton_self d)
  | container ds => exact Bundle.fits_container_iff.2 ⟨hparsed.length_eq ▸ hcount, hfits⟩

theorem bundleOf_eq_ok (h : bundleOf extension output sources = .ok b) :
    List.Forall₂ (fun source d => Descriptor.parse source = .ok d) sources b.descriptors ∧
      b.isContainer = Resolution.isContainerName extension output := by
  obtain ⟨ds, hds, hfor⟩ := bind_eq_ok_iff.1 h
  obtain ⟨rfl, hkind⟩ := bundleFor_eq_ok hfor
  exact ⟨mapM_eq_ok_iff.1 hds, hkind⟩

/-! ## Main result -/

section
variable {settings : Settings} {disk disk' : Disk}

theorem describe_of_refused (h : Refused settings.planning.containerExtension output sources failure) :
    describe settings output sources disk = (.error failure, disk) := by
  have hbundle : sources.mapM Descriptor.parse >>=
      bundleFor settings.planning.containerExtension output = .error failure :=
    bundleOf_eq_error_iff.2 h
  rw [describe, hbundle]

/-- A bundle is written in a store opened on the disk. -/
theorem describe_of_bundleOf
    (h : bundleOf settings.planning.containerExtension output sources = .ok b) :
    describe settings output sources disk =
      match DiskStore.create settings.storage disk with
      | (.error failure, disk) => (.error failure, disk)
      | (.ok s, _) => ((Store.save s ⟨output⟩ b.encode).1, (Store.save s ⟨output⟩ b.encode).2.disk) := by
  rw [bundleOf] at h
  rw [describe, h]
  rfl

/-- Once there is a bundle only the system can refuse. -/
theorem ofSystem_of_describe (h : bundleOf settings.planning.containerExtension output sources = .ok b)
    (hfail : (describe settings output sources disk).1 = .error failure) :
    ∃ path problem error, failure = .ofSystem path problem error := by
  rw [describe_of_bundleOf h] at hfail
  split at hfail
  · rename_i hcreate
    cases hfail
    exact DiskStore.ofSystem_of_create hcreate
  · rename_i s _ _
    rcases hsave : Store.save s ⟨output⟩ b.encode with ⟨result, last⟩
    rw [hsave] at hfail
    cases hfail
    exact DiskStore.ofSystem_of_save hsave

theorem describe_eq_ok (h : describe settings output sources disk = (.ok (), disk')) :
    ∃ b s, bundleOf settings.planning.containerExtension output sources = .ok b ∧
      DiskStore.create settings.storage disk = (.ok s, s.disk) ∧
      Store.save s ⟨output⟩ b.encode = (.ok (), { s with disk := disk' }) := by
  cases hbundle : bundleOf settings.planning.containerExtension output sources with
  | error failure =>
    rw [describe_of_refused (bundleOf_eq_error_iff.1 hbundle)] at h
    cases h
  | ok b =>
    rw [describe_of_bundleOf hbundle] at h
    split at h
    · cases h
    · rename_i s opened hcreate
      have hsame := (DiskStore.create_eq_ok hcreate).1
      rcases hsave : Store.save s ⟨output⟩ b.encode with ⟨result, last⟩
      rw [hsave] at h
      cases h
      obtain ⟨loc, disk', rfl, -, -⟩ := DiskStore.save_eq_ok hsave
      exact ⟨b, s, rfl, hsame ▸ hcreate, hsave⟩

/-- **Describing sources, and resolving the description.**

    * A description is an unfit descriptor iff some source is unfit or, when none is, the name does
      not end in the container extension and there is not exactly one source.  The first unfit source
      decides how it fails, and the disk is left as it was.
    * If it succeeds, then a store is opened on the disk that it leaves, and the name resolves there
      to the descriptors that the sources stand for, in order; all other files are as they were.  The
      number of sources and their lengths have to fit in eight octets, as those of any list in the
      memory of a machine do. -/
theorem describe_resolves (settings : Settings) (output : String) (sources : List String)
    (disk : Disk) :
    ((∃ reference problem,
        (describe settings output sources disk).1 = .error (.descriptor reference problem)) ↔
      ∃ failure, Refused settings.planning.containerExtension output sources failure) ∧
    (∀ failure, Refused settings.planning.containerExtension output sources failure →
      describe settings output sources disk = (.error failure, disk)) ∧
    ∀ disk', describe settings output sources disk = (.ok (), disk') →
      sources.length < 2 ^ 64 → (∀ source ∈ sources, source.utf8ByteSize < 2 ^ 64) →
      ∃ s ds, DiskStore.create settings.storage disk' = (.ok s, disk') ∧
        List.Forall₂ (fun source d => Descriptor.parse source = .ok d) sources ds ∧
        Resolution.descriptors settings.planning.containerExtension s output = .ok ds ∧
        ∀ l content, (∀ k, disk'.locate (s.full ⟨output⟩) ≠ .ok (l, k)) →
          (disk'.find? l = some (.file content) ↔ disk.find? l = some (.file content)) := by
  refine ⟨⟨?_, ?_⟩, fun failure => describe_of_refused, ?_⟩
  · rintro ⟨reference, problem, hfail⟩
    cases hbundle : bundleOf settings.planning.containerExtension output sources with
    | error failure => exact ⟨failure, bundleOf_eq_error_iff.1 hbundle⟩
    | ok b =>
      obtain ⟨path, reason, error, hsystem⟩ := ofSystem_of_describe hbundle hfail
      exact absurd hsystem.symm (Failure.ofSystem_ne_descriptor _ _ _ _ _)
  · rintro ⟨failure, hrefused⟩
    obtain ⟨reference, problem, rfl⟩ := hrefused.exists_descriptor
    exact ⟨reference, problem, congrArg Prod.fst (describe_of_refused hrefused)⟩
  · intro disk' hdone hcount hsizes
    obtain ⟨b, s, hbundle, hcreate, hsave⟩ := describe_eq_ok hdone
    obtain ⟨hparsed, hkind⟩ := bundleOf_eq_ok hbundle
    obtain ⟨loc, last, hlast, hgrows, hlocate⟩ := DiskStore.save_eq_ok hsave
    cases hlast
    have hread : Store.read ({ s with disk := disk' } : DiskStore) ⟨output⟩ = .ok b.encode :=
      DiskStore.read_eq_ok_iff.2 ⟨loc, hlocate⟩
    have hdecode := Bundle.decode_encode (fits_of_bundleOf hcount hsizes hparsed)
    refine ⟨_, b.descriptors, DiskStore.create_of_grows hcreate hgrows, hparsed, ?_, ?_⟩
    · rw [Resolution.descriptors_eq hread hdecode, if_pos hkind]
    · intro l content hother
      have hne : l ≠ loc := by
        rintro rfl
        exact hother _ hlocate
      exact (hgrows.file_iff hne content).trans ((DiskStore.create_eq_ok hcreate).2 l content)

/-- A container of two sources in directories that are missing, and the same sources under the name
    of a single descriptor. -/
theorem describe_resolves_two :
    let settings : Settings := { storage := { basePath := ⟨"data"⟩ } }
    let sources := ["a:b:3-", "c"]
    let ds : List Descriptor := [{ source := some "a:b", start := 3 }, { source := some "c" }]
    describe settings "jobs/x.wu" sources .empty = (.error (.descriptor "jobs/x.wu"
      "2 sources given; use the '.mwu' extension for a container"), .empty) ∧
    ∃ disk' s, describe settings "jobs/x.mwu" sources .empty = (.ok (), disk') ∧
      DiskStore.create settings.storage disk' = (.ok s, disk') ∧
      Resolution.descriptors ".mwu" s "jobs/x.mwu" = .ok ds := by
  intro settings sources ds
  have hparsed : sources.mapM Descriptor.parse = .ok ds :=
    toOption_eq_some_iff.1 (by decide +kernel)
  constructor
  · have hall := exists_mapM_eq_ok_iff.1 ⟨ds, hparsed⟩
    have hsingle : ¬ ".mwu".toList <:+ "jobs/x.wu".toList := by decide
    have hproblem : toString sources.length ++ " sources given; use the '" ++ ".mwu" ++
        "' extension for a container" =
          "2 sources given; use the '.mwu' extension for a container" := by decide
    rw [← hproblem]
    exact (describe_resolves ..).2.1 _ (.count hall hsingle (by decide))
  · have hdone : describe settings "jobs/x.mwu" sources .empty = (.ok (), _) :=
      Prod.ext (toOption_eq_some_iff.1 (by decide +kernel)) rfl
    obtain ⟨s, ds', hcreate, hds', hresolved, -⟩ :=
      (describe_resolves ..).2.2 _ hdone (by decide) (by decide)
    cases (mapM_eq_ok_iff.2 hds').symm.trans hparsed
    exact ⟨_, s, hdone, hcreate, hresolved⟩

end

end Commands

end Apportion
