/-
  Writing through a handle: where the bytes are that were written through it.

  * `patched`: what a write at an offset leaves of a file; writes one behind the other are one write
    (`patched_patched`).
  * `Advances`, `advances_append`, `advances_flush`: of the bytes kept back and those written, some
    are passed on, in order, and the others kept back, whatever the buffer holds.
  * `Holds`, `Advances.holds`: the bytes written so far, up to the position of the writer passed on,
    from there on kept back.
  * `Advances.find?_take`: if the file has just what was passed on, so it has afterwards.
-/
import Apportion.Proofs.Disk.Saving

namespace Apportion

namespace Disk

variable {d : Disk} {loc : Location} {content : Octets}

/-! ## Writes at an offset -/

/-- What a write leaves of a file; the empty one changes nothing. -/
def patched (content : Octets) (offset : Nat) (data : Octets) : Octets :=
  if data = [] then content else overwrite content offset data

theorem patched_nil (content : Octets) (offset : Nat) : patched content offset [] = content :=
  if_pos rfl

/-- The bytes before an offset, with zeros where there are none. -/
def front (content : Octets) (offset : Nat) : Octets :=
  content.take offset ++ List.replicate (offset - content.length) 0

@[simp] theorem length_front (content : Octets) (offset : Nat) :
    (front content offset).length = offset := by
  simp only [front, List.length_append, List.length_take, List.length_replicate]
  omega

theorem overwrite_eq (content : Octets) (offset : Nat) (data : Octets) :
    overwrite content offset data =
      front content offset ++ (data ++ content.drop (offset + data.length)) := by
  simp only [overwrite, front, List.append_assoc]

/-- What is before the offset stays. -/
theorem take_prefix_patched (content : Octets) (offset : Nat) (data : Octets) :
    content.take offset <+: patched content offset data := by
  unfold patched
  split
  · exact List.take_prefix ..
  · rw [overwrite_eq, front, List.append_assoc]
    exact List.prefix_append ..

/-- From the offset on there are the bytes of the write, and then what was there. -/
theorem drop_patched (content : Octets) (offset : Nat) (data : Octets) :
    (patched content offset data).drop offset = data ++ content.drop (offset + data.length) := by
  unfold patched
  split
  · rename_i hnil
    rw [hnil, List.nil_append, List.length_nil, Nat.add_zero]
  · rw [overwrite_eq, List.drop_left' (length_front ..)]

/-- A write at the end. -/
theorem patched_length (content data : Octets) :
    patched content content.length data = content ++ data := by
  unfold patched
  split
  · rename_i hnil
    rw [hnil, List.append_nil]
  · simp [overwrite]

/-- A write from where another one ends goes on with it. -/
theorem overwrite_overwrite (content : Octets) (offset : Nat) (data more : Octets) :
    overwrite (overwrite content offset data) (offset + data.length) more =
      overwrite content offset (data ++ more) := by
  have hlength : (front content offset ++ data).length = offset + data.length := by
    rw [List.length_append, length_front]
  have hfirst : overwrite content offset data =
      (front content offset ++ data) ++ content.drop (offset + data.length) := by
    rw [overwrite_eq, List.append_assoc]
  have hfront : front (overwrite content offset data) (offset + data.length) =
      front content offset ++ data := by
    rw [hfirst, front, List.take_left' hlength, List.length_append, hlength,
      Nat.sub_eq_zero_of_le (Nat.le_add_right ..), List.replicate_zero, List.append_nil]
  have hrest : (overwrite content offset data).drop (offset + data.length + more.length) =
      content.drop (offset + (data ++ more).length) := by
    rw [← List.drop_drop, hfirst, List.drop_left' hlength, List.drop_drop, List.length_append,
      Nat.add_assoc]
  rw [overwrite_eq, hfront, hrest, overwrite_eq content offset (data ++ more)]
  simp only [List.append_assoc]

theorem patched_patched (content : Octets) (offset : Nat) (data more : Octets) :
    patched (patched content offset data) (offset + data.length) more =
      patched content offset (data ++ more) := by
  by_cases hdata : data = []
  · rw [hdata, patched_nil, List.length_nil, Nat.add_zero, List.nil_append]
  by_cases hmore : more = []
  · rw [hmore, patched_nil, List.append_nil]
  have hboth : data ++ more ≠ [] := fun h => hdata (List.append_eq_nil_iff.1 h).1
  rw [patched, if_neg hmore, patched, if_neg hdata, patched, if_neg hboth, overwrite_overwrite]

theorem find?_writeAt_patched (h : d.find? loc = some (.file content)) (offset : Nat)
    (data : Octets) (l : Location) : (d.writeAt loc offset data).find? l =
      if l = loc then some (.file (patched content offset data)) else d.find? l := by
  by_cases hdata : data = []
  · rw [hdata, writeAt_nil, patched_nil]
    split
    · rename_i heq
      rw [heq, h]
    · rfl
  · rw [find?_writeAt h offset hdata, patched, if_neg hdata]

/-- Writing changes the file that it is about, and nothing where there is none. -/
theorem grows_writeAt (d : Disk) (loc : Location) (offset : Nat) (data : Octets) :
    Grows loc d (d.writeAt loc offset data) := by
  by_cases h : ∃ content, d.find? loc = some (.file content)
  · obtain ⟨content, hfind⟩ := h
    exact Grows.writeAt hfind offset data
  · rw [writeAt_of_ne_file (not_exists.1 h)]
    exact .refl loc d

end Disk

namespace DiskStore

open Disk

variable {s s' s'' : DiskStore} {w w' w'' : Writer} {data more written : Octets}

/-! ## Bytes on their way -/

/-- What is done through a writer with bytes that are written: of those kept back and those written
    some are passed on to the file, the first ones and in order, and the others are kept back. -/
structure Advances (s : DiskStore) (w : Writer) (data : Octets) (w' : Writer) (s' : DiskStore) :
    Prop where
  location : w'.location = w.location
  store : s' = { s with disk := s'.disk }
  grows : Grows w.location s.disk s'.disk
  passed : ∃ out, out ++ w'.pending = w.pending ++ data ∧
    w'.position = w.position + out.length ∧
    ∀ content, s.disk.find? w.location = some (.file content) →
      s'.disk.find? w.location = some (.file (patched content w.position out))

namespace Advances

theorem trans (h : Advances s w data w' s') (h' : Advances s' w' more w'' s'') :
    Advances s w (data ++ more) w'' s'' := by
  obtain ⟨out, hout, hposition, hfile⟩ := h.passed
  obtain ⟨out', hout', hposition', hfile'⟩ := h'.passed
  refine ⟨h'.location.trans h.location, ?_, h.grows.trans (h.location ▸ h'.grows), out ++ out', ?_,
    ?_, fun content hfind => ?_⟩
  · rw [h'.store, h.store]
  · rw [List.append_assoc, hout', ← List.append_assoc, hout, List.append_assoc]
  · rw [hposition', hposition, List.length_append, Nat.add_assoc]
  · rw [h.location, hposition] at hfile'
    rw [hfile' _ (hfile content hfind), patched_patched]

end Advances

/-- Bytes that are kept back. -/
theorem advances_keep (s : DiskStore) (w : Writer) (data : Octets) :
    Advances s w data { w with pending := w.pending ++ data } s where
  location := rfl
  store := rfl
  grows := .refl ..
  passed := ⟨[], rfl, rfl, fun _ hfind => by rw [patched_nil]; exact hfind⟩

/-- Bytes that go straight on, with none kept back before them. -/
theorem advances_pass (h : w.pending = [] ∨ data = []) :
    Advances s w data (s.pass w data).1 (s.pass w data).2 where
  location := rfl
  store := rfl
  grows := grows_writeAt ..
  passed := by
    refine ⟨data, ?_, rfl, fun content hfind => ?_⟩
    · rcases h with h | h <;> simp [pass, h]
    · exact (find?_writeAt_patched hfind ..).trans (if_pos rfl)

/-- Nothing is kept back after flushing. -/
theorem advances_flush (s : DiskStore) (w : Writer) :
    Advances s w [] (s.flush w).1 (s.flush w).2 where
  location := rfl
  store := rfl
  grows := grows_writeAt ..
  passed := ⟨w.pending, rfl, rfl, fun _ hfind =>
    (find?_writeAt_patched hfind ..).trans (if_pos rfl)⟩

/-- **Writing**, with a buffer of any size. -/
theorem advances_append (s : DiskStore) (w : Writer) (data : Octets) :
    Advances s w data (s.append w data).1 (s.append w data).2 := by
  unfold append
  dsimp only
  split
  · -- the bytes make way for themselves
    have hflush := advances_flush s w
    split
    · exact hflush.trans (advances_keep ..)
    · exact hflush.trans (advances_pass (Or.inl rfl))
  · rename_i hroom
    split
    · exact advances_keep ..
    · rename_i hlarge
      refine advances_pass ?_
      rw [← List.length_eq_zero_iff, ← List.length_eq_zero_iff]
      dsimp only at hlarge
      omega

/-! ## What was written -/

/-- The bytes written through a writer: up to its position they were passed on, and the others are
    kept back. -/
structure Writer.Holds (w : Writer) (written : Octets) : Prop where
  position_le : w.position ≤ written.length
  pending_eq : w.pending = written.drop w.position

namespace Advances

variable (h : Advances s w data w' s') (hw : w.Holds written)
include h hw

theorem exists_passed : ∃ out, w'.position = w.position + out.length ∧
    (written ++ data).drop w.position = out ++ w'.pending ∧
    ∀ content, s.disk.find? w.location = some (.file content) →
      s'.disk.find? w.location = some (.file (patched content w.position out)) := by
  obtain ⟨out, hout, hposition, hfile⟩ := h.passed
  refine ⟨out, hposition, ?_, hfile⟩
  rw [List.drop_append_of_le_length hw.position_le, hout, hw.pending_eq]

theorem holds : w'.Holds (written ++ data) := by
  obtain ⟨out, hposition, hdrop, -⟩ := h.exists_passed hw
  have hle := hw.position_le
  refine ⟨?_, ?_⟩
  · have hlength := congrArg List.length hdrop
    simp only [List.length_drop, List.length_append] at hlength ⊢
    omega
  · rw [hposition, ← List.drop_drop, hdrop, List.drop_left]

/-- A file that has just what was passed on still does. -/
theorem find?_take (hfind : s.disk.find? w.location = some (.file (written.take w.position))) :
    s'.disk.find? w'.location = some (.file ((written ++ data).take w'.position)) := by
  obtain ⟨out, hposition, hdrop, hfile⟩ := h.exists_passed hw
  have hlength : (written.take w.position).length = w.position :=
    List.length_take_of_le hw.position_le
  have hpatched := patched_length (written.take w.position) out
  rw [hlength] at hpatched
  rw [h.location, hfile _ hfind, hpatched, hposition, List.take_add, hdrop, List.take_left,
    List.take_append_of_le_length hw.position_le]

end Advances

end DiskStore

end Apportion
