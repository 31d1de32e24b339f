/-
  Following paths, told by locations alone.

  * `stepFrom`, `walk`: steps between locations, which ask only what is at them.
  * `map_location_follow`: following steps down the tree leads where walking does.
  * `locate_eq_ok_iff`: where a path leads, and what is there.
  * `locateParent_eq_ok_iff`: the entry that a path is about, there or not.
  * `spelled`: where steps lead if everything is there; `foldlM_stepFrom_eq_spelled`,
    `exists_up_of_spelled`.
  * `movesOf`, `foldlM_stepFrom_eq_ok`: steps that never go up lead through all names, but for those
    that stay.
-/
import Apportion.Disk.Lookup
import Apportion.Proofs.Path
import Apportion.Proofs.Sequence
import Mathlib.Data.List.Induction

namespace Apportion

namespace Disk

open Sequence

/-! ## Walking -/

/-- One step from a location. -/
def stepFrom (d : Disk) (loc : Location) (name : String) : Except SystemError Location :=
  match d.find? loc with
  | some .directory =>
    if name = "." then .ok loc
    else if name = ".." then .ok loc.tail
    else if maxName < name.utf8ByteSize then .error .nameTooLong
    else if (d.find? (name :: loc)).isSome then .ok (name :: loc)
    else .error .missing
  | _ => .error .notDirectory

/-- The steps of a path, one after the other, from the root. -/
def walk (d : Disk) (steps : List String) : Except SystemError Location :=
  steps.foldlM d.stepFrom []

variable {d : Disk}

/-- What a step has led to, case by case. -/
theorem stepFrom_eq_ok_iff {loc loc' : Location} {name : String} :
    d.stepFrom loc name = .ok loc' ↔ d.find? loc = some .directory ∧
      (name = "." ∧ loc' = loc ∨ name = ".." ∧ loc' = loc.tail ∨
        name ≠ "." ∧ name ≠ ".." ∧ name.utf8ByteSize ≤ maxName ∧
          (d.find? (name :: loc)).isSome ∧ loc' = name :: loc) := by
  constructor
  · intro h
    unfold stepFrom at h
    split at h
    · rename_i hdir
      refine ⟨hdir, ?_⟩
      split at h
      · rename_i hhere
        cases h
        exact Or.inl ⟨hhere, rfl⟩
      split at h
      · rename_i hup
        cases h
        exact Or.inr (Or.inl ⟨hup, rfl⟩)
      split at h
      · cases h
      split at h
      · rename_i hhere hup hlong hthere
        cases h
        exact Or.inr (Or.inr ⟨hhere, hup, Nat.not_lt.1 hlong, hthere, rfl⟩)
      · cases h
    · cases h
  · rintro ⟨hdir, ⟨rfl, rfl⟩ | ⟨rfl, rfl⟩ | ⟨hhere, hup, hlong, hthere, rfl⟩⟩
    · simp only [stepFrom, hdir, if_true]
    · simp only [stepFrom, hdir, String.reduceEq, if_false, if_true]
    · simp only [stepFrom, hdir, hhere, hup, Nat.not_lt.2 hlong, hthere, if_false, if_true]

theorem walk_append (steps more : List String) :
    d.walk (steps ++ more) = d.walk steps >>= fun loc => more.foldlM d.stepFrom loc :=
  List.foldlM_append

/-- The steps that lead on; a `.` stays. -/
def movesOf (steps : List String) : List String := steps.filter (· ≠ ".")

theorem movesOf_append (steps more : List String) :
    movesOf (steps ++ more) = movesOf steps ++ movesOf more :=
  List.filter_append ..

theorem movesOf_prefix {front steps : List String} (h : front <+: steps) :
    movesOf front <+: movesOf steps :=
  h.filter _

theorem movesOf_singleton {name : String} (h : name ≠ ".") : movesOf [name] = [name] :=
  List.filter_eq_self.2 fun _ hname => decide_eq_true (List.mem_singleton.1 hname ▸ h)

/-- Where a step from a location leads if everything is there. -/
def turn (loc : Location) (name : String) : Location :=
  if name = "." then loc else if name = ".." then loc.tail else name :: loc

/-- The location that steps from another one spell, there or not. -/
def spelled (loc : Location) (steps : List String) : Location := steps.foldl turn loc

theorem spelled_append (loc : Location) (steps more : List String) :
    spelled loc (steps ++ more) = spelled (spelled loc steps) more :=
  List.foldl_append

theorem spelled_singleton {name : String} (hhere : name ≠ ".") (hup : name ≠ "..")
    (loc : Location) : spelled loc [name] = name :: loc := by
  change turn loc name = _
  rw [turn, if_neg hhere, if_neg hup]

/-- **Steps lead to the location that they spell**, if they lead anywhere. -/
theorem foldlM_stepFrom_eq_spelled {steps : List String} {loc loc' : Location}
    (h : steps.foldlM d.stepFrom loc = .ok loc') : loc' = spelled loc steps := by
  induction steps generalizing loc with
  | nil => cases h; rfl
  | cons name steps ih =>
    obtain ⟨mid, hmid, h⟩ := foldlM_cons_eq_ok_iff.1 h
    have hturn : mid = turn loc name := by
      obtain ⟨-, ⟨rfl, rfl⟩ | ⟨rfl, rfl⟩ | ⟨hhere, hup, -, -, rfl⟩⟩ := stepFrom_eq_ok_iff.1 hmid
      · rfl
      · rfl
      · rw [turn, if_neg hhere, if_neg hup]
    rw [ih h, hturn]
    rfl

theorem walk_eq_spelled {steps : List String} {loc : Location} (h : d.walk steps = .ok loc) :
    loc = spelled [] steps :=
  foldlM_stepFrom_eq_spelled h

/-- Steps that never go up spell what they move through. -/
theorem spelled_of_notMem {steps : List String} (hup : ".." ∉ steps) (loc : Location) :
    spelled loc steps = (movesOf steps).reverse ++ loc := by
  induction steps generalizing loc with
  | nil => rfl
  | cons name steps ih =>
    rw [List.mem_cons, not_or] at hup
    rw [← List.singleton_append, spelled_append, ih hup.2, movesOf_append]
    by_cases hhere : name = "."
    · rw [hhere]
      rfl
    · rw [spelled_singleton hhere (Ne.symm hup.1), movesOf_singleton hhere, List.reverse_append,
        List.append_assoc]
      rfl

theorem foldlM_stepFrom_eq_ok {steps : List String} {loc loc' : Location} (hup : ".." ∉ steps)
    (h : steps.foldlM d.stepFrom loc = .ok loc') : loc' = (movesOf steps).reverse ++ loc :=
  (foldlM_stepFrom_eq_spelled h).trans (spelled_of_notMem hup loc)

/-- Steps from inside a directory to the one that it lies in go up out of it. -/
theorem exists_up_of_spelled {steps inner : List String} {name : String} {loc : Location}
    (h : spelled (inner ++ name :: loc) steps = loc) :
    ∃ front behind, steps = front ++ ".." :: behind ∧
      spelled (inner ++ name :: loc) front = name :: loc := by
  induction steps generalizing inner with
  | nil =>
    have hlength := congrArg List.length h
    simp only [spelled, List.foldl_nil, List.length_append, List.length_cons] at hlength
    omega
  | cons step steps ih =>
    have hnext : ∀ inner', turn (inner ++ name :: loc) step = inner' ++ name :: loc →
        ∃ front behind, step :: steps = front ++ ".." :: behind ∧
          spelled (inner ++ name :: loc) front = name :: loc := by
      intro inner' hturn
      have hrest : spelled (inner' ++ name :: loc) steps = loc := hturn ▸ h
      obtain ⟨front, behind, rfl, hfront⟩ := ih hrest
      refine ⟨step :: front, behind, rfl, ?_⟩
      change spelled (turn (inner ++ name :: loc) step) front = _
      rw [hturn, hfront]
    by_cases hhere : step = "."
    · exact hnext inner (if_pos hhere)
    by_cases hup : step = ".."
    · cases inner with
      | nil => exact ⟨[], steps, by rw [hup, List.nil_append], rfl⟩
      | cons name' inner => exact hnext inner (by rw [turn, if_neg hhere, if_pos hup]; rfl)
    · exact hnext (step :: inner) (by rw [turn, if_neg hhere, if_neg hup]; rfl)

/-! ## Trails -/

/-- Every tree of a trail is the one that its name leads to. -/
def Trail.Sound (root : Tree) : Trail → Prop
  | [] => True
  | (name, t) :: trail => Sound root trail ∧
      ∃ entries, Trail.tree root trail = .directory entries ∧ entries.lookup name = some t

namespace Trail

variable {root : Tree} {trail trail' : Trail}

theorem Sound.at?_location (h : trail.Sound root) :
    root.at? trail.location.reverse = some (trail.tree root) := by
  induction trail with
  | nil => exact Tree.at?_nil root
  | cons e trail ih =>
    obtain ⟨name, t⟩ := e
    obtain ⟨hsound, entries, hdir, hname⟩ := h
    have hloc : Trail.location ((name, t) :: trail) = name :: Trail.location trail := rfl
    rw [hloc, List.reverse_cons, Tree.at?_append, ih hsound, Option.bind_some, hdir]
    simp only [Tree.at?, hname]
    rfl

theorem Sound.tail (h : trail.Sound root) : Trail.Sound root trail.tail := by
  cases trail with
  | nil => exact h
  | cons e trail => exact h.1

theorem Sound.find? {d : Disk} (h : trail.Sound d.root) :
    d.find? trail.location = some (trail.tree d.root).kind := by
  rw [Disk.find?, h.at?_location, Option.map_some]

theorem Sound.find?_cons {d : Disk} {entries : List (String × Tree)} (h : trail.Sound d.root)
    (hdir : trail.tree d.root = .directory entries) (name : String) :
    d.find? (name :: trail.location) = (entries.lookup name).map Tree.kind := by
  rw [Disk.find?, List.reverse_cons, Tree.at?_append, h.at?_location, Option.bind_some, hdir]
  simp only [Tree.at?]
  cases entries.lookup name <;> rfl

theorem sound_step {name : String} (h : trail.Sound root)
    (hstep : step root trail name = .ok trail') : trail'.Sound root := by
  unfold step at hstep
  split at hstep
  · cases hstep
  · rename_i entries hdir
    split at hstep
    · cases hstep; exact h
    split at hstep
    · cases hstep; exact h.tail
    split at hstep
    · cases hstep
    split at hstep
    · cases hstep
    · rename_i t ht
      cases hstep
      exact ⟨h, entries, hdir, ht⟩

/-- A step down the tree is a step between locations. -/
theorem map_location_step {d : Disk} {name : String} (h : trail.Sound d.root) :
    (step d.root trail name).map location = d.stepFrom trail.location name := by
  unfold step stepFrom
  rw [h.find?]
  cases hdir : trail.tree d.root with
  | file content => rfl
  | directory entries =>
    have hcons := h.find?_cons hdir name
    simp only [Tree.kind, hcons, Option.isSome_map]
    by_cases hhere : name = "."
    · simp only [hhere, if_true, Except.map]
    by_cases hup : name = ".."
    · simp only [hup, String.reduceEq, if_true, if_false, Except.map, location, List.map_tail]
    by_cases hlong : maxName < name.utf8ByteSize
    · simp only [hhere, hup, hlong, if_true, if_false, Except.map]
    · simp only [hhere, hup, hlong, if_false]
      cases entries.lookup name <;> rfl

theorem map_location_foldlM {d : Disk} {steps : List String} (h : trail.Sound d.root) :
    (steps.foldlM (step d.root) trail).map location =
        steps.foldlM d.stepFrom trail.location ∧
      ∀ trail', steps.foldlM (step d.root) trail = .ok trail' → trail'.Sound d.root := by
  induction steps generalizing trail with
  | nil => exact ⟨rfl, fun trail' e => by cases e; exact h⟩
  | cons name steps ih =>
    rw [List.foldlM_cons, List.foldlM_cons, ← map_location_step h]
    cases hstep : step d.root trail name with
    | error error => exact ⟨rfl, fun trail' e => by cases e⟩
    | ok mid => exact ih (sound_step h hstep)

end Trail

/-- **Following is walking**, and the trail followed is sound. -/
theorem map_location_follow (d : Disk) (steps : List String) :
    (d.follow steps).map Trail.location = d.walk steps ∧
      ∀ trail, d.follow steps = .ok trail → trail.Sound d.root :=
  Trail.map_location_foldlM (show Trail.Sound d.root [] from trivial)

/-- Walking leads to what a sound trail has led to. -/
theorem walk_eq_ok_iff {steps : List String} {loc : Location} :
    d.walk steps = .ok loc ↔ ∃ trail, d.follow steps = .ok trail ∧ trail.location = loc ∧
      d.find? loc = some (trail.tree d.root).kind := by
  obtain ⟨hmap, hsound⟩ := map_location_follow d steps
  rw [← hmap, map_eq_ok_iff]
  constructor
  · rintro ⟨trail, htrail, rfl⟩
    exact ⟨trail, htrail, rfl, (hsound trail htrail).find?⟩
  · rintro ⟨trail, htrail, hloc, -⟩
    exact ⟨trail, htrail, hloc⟩

/-! ## Where paths lead -/

variable {p : Path}

/-- **Where a path leads**: to the location it walks to, and to what is there. -/
theorem locate_eq_ok_iff {loc : Location} {k : Tree.Kind} :
    d.locate p = .ok (loc, k) ↔ checkSpelling p = .ok () ∧
      d.walk (d.stepsFromRoot p) = .ok loc ∧ d.find? loc = some k ∧
      (endsInSlash p → k = .directory) := by
  rw [locate, bind_eq_ok_iff]
  constructor
  · rintro ⟨⟨⟩, hspelling, h⟩
    obtain ⟨trail, htrail, h⟩ := bind_eq_ok_iff.1 h
    have hfind := ((map_location_follow d _).2 trail htrail).find?
    split at h
    · rename_i entries hdir
      cases h
      rw [hdir] at hfind
      exact ⟨hspelling, walk_eq_ok_iff.2 ⟨trail, htrail, rfl, by rw [hfind, hdir]⟩, hfind,
        fun _ => rfl⟩
    · rename_i content hfile
      split at h
      · cases h
      · rename_i hslash
        cases h
        rw [hfile] at hfind
        exact ⟨hspelling, walk_eq_ok_iff.2 ⟨trail, htrail, rfl, by rw [hfind, hfile]⟩, hfind,
          fun e => absurd e hslash⟩
  · rintro ⟨hspelling, hwalk, hfind, hslash⟩
    obtain ⟨trail, htrail, rfl, htree⟩ := walk_eq_ok_iff.1 hwalk
    cases hfind.symm.trans htree
    refine ⟨(), hspelling, bind_eq_ok_iff.2 ⟨trail, htrail, ?_⟩⟩
    cases hkind : trail.tree d.root with
    | directory entries => rfl
    | file content =>
      rw [hkind] at hslash
      simp only [Tree.kind, reduceCtorEq, imp_false] at hslash
      simp only [hslash, Bool.false_eq_true, if_false]
      rfl

/-- **The entry a path is about**: what its last step names, in the directory that the steps
    before it walk to. -/
theorem locateParent_eq_ok_iff {above : Location} {name : String} :
    d.locateParent p = .ok (above, some name) ↔ checkSpelling p = .ok () ∧
      ∃ steps, d.stepsFromRoot p = steps ++ [name] ∧ d.walk steps = .ok above ∧
        d.find? above = some .directory ∧ name ≠ "." ∧ name ≠ ".." ∧
        name.utf8ByteSize ≤ maxName := by
  rw [locateParent, bind_eq_ok_iff]
  constructor
  · rintro ⟨⟨⟩, hspelling, h⟩
    refine ⟨hspelling, ?_⟩
    dsimp only at h
    split at h
    · cases h
    · rename_i last hlast
      obtain ⟨steps, hsteps⟩ := List.getLast?_eq_some_iff.1 hlast
      obtain ⟨trail, htrail, h⟩ := bind_eq_ok_iff.1 h
      rw [hsteps, List.dropLast_concat] at htrail
      have hfind := ((map_location_follow d _).2 trail htrail).find?
      split at h
      · cases h
      · rename_i entries hdir
        split at h
        · cases h
        · rename_i hdots
          rw [not_or] at hdots
          split at h
          · cases h
          · rename_i hlong
            cases h
            rw [hdir] at hfind
            exact ⟨steps, hsteps, walk_eq_ok_iff.2 ⟨trail, htrail, rfl, by rw [hfind, hdir]⟩, hfind,
              hdots.1, hdots.2, Nat.not_lt.1 hlong⟩
  · rintro ⟨hspelling, steps, hsteps, hwalk, hdir, hhere, hup, hlong⟩
    obtain ⟨trail, htrail, rfl, htree⟩ := walk_eq_ok_iff.1 hwalk
    refine ⟨(), hspelling, ?_⟩
    simp only [hsteps, List.getLast?_concat, List.dropLast_concat]
    refine bind_eq_ok_iff.2 ⟨trail, htrail, ?_⟩
    cases hkind : trail.tree d.root with
    | file content =>
      rw [hkind, hdir] at htree
      cases htree
    | directory entries =>
      simp only [hhere, hup, or_self, Nat.not_lt.2 hlong, if_false]
      rfl

end Disk

end Apportion
