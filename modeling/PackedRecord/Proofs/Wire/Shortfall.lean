import Mathlib
import PackedRecord.Proofs.Format.Acceptance
import PackedRecord.Proofs.Wire.Decoding

/-!
# Buffers that end too early

Records often arrive in parts, and a reader that finds too few bytes says how many it would have
needed.  Two things make that answer useful.  It is *local*: once a record can be read, nothing
behind its last byte matters.  And it is *sound*: the number is more than there is and never more
than the record has, so that waiting for so many bytes makes progress and asks for nothing that
belongs to the next record.

A fault of this kind *asks* for bytes (`UnpackFault.Asks`), beyond the end of the buffer and within
a limit.  Every fault of the reader asks for some number of bytes (`Layout.asks_of_unpackFront`).
The limit is sharp where the buffer is the front of longer bytes in which the record is complete.
There the reader does not notice the missing bytes at once, since it passes over pads and over the
unused capacity of strings; but as long as it goes on, its shift is the one that it has on the
longer bytes (`Reader.step_of_cut`, `Reader.run_of_cut`), so that every place where it can stop lies
within the record (`Layout.unpackFront_of_cut`).
-/

namespace PackedRecord

/-! ## Faults that ask for bytes -/

/-- A fault that asks for more bytes than the buffer has, though for no more than `limit`. -/
def UnpackFault.Asks (buffer : Array UInt8) (limit : ℕ) (fault : UnpackFault) : Prop :=
  ∃ needed, fault = .truncated needed buffer.size ∧ buffer.size < needed ∧ needed ≤ limit

lemma UnpackFault.Asks.mono {buffer : Array UInt8} {limit limit' : ℕ} {fault : UnpackFault}
    (h : fault.Asks buffer limit) (hle : limit ≤ limit') : fault.Asks buffer limit' := by
  obtain ⟨needed, rfl, hsize, hneeded⟩ := h
  exact ⟨needed, rfl, hsize, hneeded.trans hle⟩

section

variable {buffer : Array UInt8} {position n : ℕ} {fault : UnpackFault}

lemma asks_of_slice (hbuffer : buffer.size < maxSize)
    (h : slice buffer position n = .error fault) :
    fault.Asks buffer (min (position + n) maxSize) := by
  unfold slice at h
  split at h
  · cases h
  · next hshort =>
    rw [← Except.error.inj h]
    exact ⟨_, rfl, by omega, le_rfl⟩

lemma le_size_of_slice {bs : List UInt8} (h : slice buffer position n = .ok bs) :
    position + n ≤ buffer.size := by
  unfold slice at h
  split at h
  · assumption
  · cases h

lemma asks_of_prefixedAt {limit : ℕ} (hbuffer : buffer.size < maxSize)
    (h : prefixedAt buffer position limit = .error fault) :
    fault.Asks buffer (min (position + 1 + limit) maxSize) := by
  unfold prefixedAt at h
  split at h
  · next fault' hbyte =>
    obtain rfl := Except.error.inj h
    exact (asks_of_slice hbuffer (map_eq_error hbyte)).mono (by omega)
  · exact (asks_of_slice hbuffer h).mono (by omega)

/-! ## One field -/

/-- A field that is not a dynamic string asks for no more than its static bytes. -/
lemma Slot.asks_of_valueAt {s : Slot} (hs : s.field.Proper) (hne : s.tag ≠ .dynamic)
    (hbuffer : buffer.size < maxSize) (h : s.valueAt buffer position = .error fault) :
    fault.Asks buffer (min (position + s.size) maxSize) := by
  have hsize := size_of_proper hs
  unfold valueAt at h
  cases hk : s.tag.kind with
  | signedInt | unsignedInt | float32 | float64 | bool =>
    simp only [hk] at h hsize
    rw [hsize]
    exact asks_of_slice hbuffer (map_eq_error (map_eq_error h))
  | char | fixedBytes =>
    simp only [hk] at h hsize
    rw [hsize]
    exact asks_of_slice hbuffer (map_eq_error h)
  | pascalString =>
    simp only [hk] at h hsize
    split at h
    · cases h
    · exact (asks_of_prefixedAt hbuffer (map_eq_error h)).mono (by omega)
  | dynamicString => exact absurd (Tag.eq_dynamic_iff.mpr hk) hne
  | pad =>
    simp only [hk] at h
    cases h

/-- A dynamic string may ask for any number of bytes. -/
lemma Slot.asks_of_valueAt_dynamic {s : Slot} (hs : s.tag = .dynamic)
    (hbuffer : buffer.size < maxSize) (h : s.valueAt buffer position = .error fault) :
    fault.Asks buffer maxSize := by
  simp only [valueAt, Tag.eq_dynamic_iff.mp hs] at h
  exact (asks_of_prefixedAt hbuffer (map_eq_error h)).mono (min_le_right _ _)

end

/-! ## The reader on any buffer -/

/-- Every fault of a step asks for bytes. -/
lemma Reader.asks_of_step {buffer : Array UInt8} (hbuffer : buffer.size < maxSize) {r : Reader}
    {s : Slot} (hs : s.field.Proper) {fault : UnpackFault} (h : r.step buffer s = .error fault) :
    fault.Asks buffer maxSize := by
  unfold step at h
  split at h
  · rw [← Except.error.inj h]
    exact ⟨maxSize, rfl, hbuffer, le_rfl⟩
  · next position _ =>
    split at h
    · next fault' hvalue =>
      obtain rfl := Except.error.inj h
      by_cases hdynamic : s.tag = .dynamic
      · exact Slot.asks_of_valueAt_dynamic hdynamic hbuffer hvalue
      · exact (Slot.asks_of_valueAt hs hdynamic hbuffer hvalue).mono (min_le_right _ _)
    · cases h
    · cases h

/-- Every fault of a run asks for bytes. -/
lemma Reader.asks_of_run {buffer : Array UInt8} (hbuffer : buffer.size < maxSize)
    {slots : List Slot} (hproper : ∀ s ∈ slots, s.field.Proper) {r : Reader} {fault : UnpackFault}
    (h : r.run buffer slots = .error fault) : fault.Asks buffer maxSize := by
  induction slots generalizing r with
  | nil => cases h
  | cons s slots ih =>
    obtain ⟨hs, hproper⟩ := List.forall_mem_cons.mp hproper
    rw [run] at h
    split at h
    · next fault' hstep =>
      obtain rfl := Except.error.inj h
      exact asks_of_step hbuffer hs hstep
    · exact ih hproper h

/-- **A record that cannot be read is too short**, and the fault asks for more than there is. -/
theorem Layout.asks_of_unpackFront {l : Layout} (hl : l.WellFormed) {buffer : Array UInt8}
    (hbuffer : buffer.size < maxSize) {fault : UnpackFault}
    (h : l.unpackFront buffer = .error fault) : fault.Asks buffer maxSize := by
  unfold unpackFront at h
  split at h
  · next fault' hrun =>
    obtain rfl := Except.error.inj h
    exact Reader.asks_of_run hbuffer hl.proper hrun
  · split at h
    · rw [← Except.error.inj h]
      exact ⟨maxSize, rfl, hbuffer, le_rfl⟩
    · next consumed hsum =>
      obtain ⟨hle, rfl⟩ := addSize?_eq_some_iff.mp hsum
      split at h
      · next hshort =>
        rw [← Except.error.inj h]
        exact ⟨_, rfl, hshort, hle⟩
      · cases h

/-! ## The reader on the front of a record

In this section the bytes of a record are complete in `bytes`, of which `buffer` is the front. -/

section

variable {bytes : List UInt8} {buffer : Array UInt8}

/-- What ends within the buffer stands in it. -/
lemma exists_rest_of_prefix (hcut : buffer.toList <+: bytes) {front back : List UInt8}
    (hbytes : bytes = front ++ back) (hle : front.length ≤ buffer.size) :
    ∃ rest, buffer.toList = front ++ rest := by
  have hfront : front <+: bytes := by
    rw [hbytes]
    exact List.prefix_append front back
  obtain ⟨rest, hrest⟩ := List.prefix_of_prefix_length_le hfront hcut (by simpa using hle)
  exact ⟨rest, hrest.symm⟩

/-- A dynamic string that does not end within the buffer asks for no more than its piece: for its
length byte, or for the content that the length byte announces. -/
lemma Slot.asks_of_dynamic_cut {s : Slot} (hs : s.tag = .dynamic) (hcut : buffer.toList <+: bytes)
    {front piece back : List UInt8} (hbytes : bytes = front ++ (piece ++ back))
    (hfills : s.Fills piece) (hbuffer : buffer.size < maxSize)
    (hshort : buffer.size < front.length + piece.length) :
    ∃ fault, s.valueAt buffer front.length = .error fault ∧
      fault.Asks buffer (front.length + piece.length) := by
  obtain ⟨m, content, rfl, hm⟩ := (fills_of_dynamic hs).mp hfills
  simp only [List.length_cons] at hshort ⊢
  simp only [valueAt, Tag.eq_dynamic_iff.mp hs, prefixedAt]
  cases hbyte : byteAt buffer front.length with
  | error fault =>
    have hasks := asks_of_slice hbuffer (map_eq_error hbyte)
    exact ⟨fault, rfl, hasks.mono (by omega)⟩
  | ok n =>
    -- The length byte is there, so that it says the same as in the complete record.
    obtain ⟨_, hone, -⟩ := map_eq_ok hbyte
    have hsplit : bytes = (front ++ [m]) ++ (content ++ back) := by rw [hbytes]; simp
    obtain ⟨rest, hrest⟩ := exists_rest_of_prefix hcut hsplit
      (by simpa using le_size_of_slice hone)
    rw [byteAt_eq_ok (by simpa using hrest)] at hbyte
    obtain rfl := Except.ok.inj hbyte
    have hlt := m.toNat_lt
    cases hcontent : slice buffer (front.length + 1) (min m.toNat maxSize) with
    | error fault =>
      have hasks := asks_of_slice hbuffer hcontent
      exact ⟨fault, by simp only [hcontent, Except.map], hasks.mono (by omega)⟩
    | ok bs =>
      have hend := le_size_of_slice hcontent
      unfold maxSize at hend
      omega

namespace Reader

/-- **One field.**  The reader moves on as on the complete record, or it asks for bytes that belong
to the field. -/
lemma step_of_cut (hcut : buffer.toList <+: bytes) (hbuffer : buffer.size < maxSize) (r : Reader)
    {s : Slot} (hs : s.field.Proper) {piece : List UInt8} (hfills : s.Fills piece)
    {front back : List UInt8} (hbytes : bytes = front ++ (piece ++ back))
    (hposition : front.length = s.offset + r.shift) (hbound : front.length ≤ maxSize) :
    (∃ r', r.step buffer s = .ok r' ∧ s.size + r'.shift = r.shift + piece.length) ∨
      ∃ fault, r.step buffer s = .error fault ∧
        fault.Asks buffer (front.length + piece.length) := by
  by_cases hin : front.length + piece.length ≤ buffer.size
  · left
    have hsplit : bytes = (front ++ piece) ++ back := by rw [hbytes]; simp
    obtain ⟨rest, hrest⟩ := exists_rest_of_prefix hcut hsplit (by simpa using hin)
    rw [List.append_assoc] at hrest
    exact ⟨_, r.step_of_fills hs hfills hrest hposition hbound, r.size_add_shift_advance hs hfills⟩
  · have hsum : addSize? s.offset r.shift = some front.length := by
      rw [addSize?, ← hposition, if_pos hbound]
    by_cases hdynamic : s.tag = .dynamic
    · right
      obtain ⟨fault, hvalue, hasks⟩ :=
        Slot.asks_of_dynamic_cut hdynamic hcut hbytes hfills hbuffer (by omega)
      exact ⟨fault, by simp only [step, hsum, hvalue], hasks⟩
    · -- A field of static size may be passed over, and then moves nothing.
      have hlength := Slot.length_of_fills hfills hdynamic
      cases hvalue : s.valueAt buffer front.length with
      | error fault =>
        right
        have hasks := Slot.asks_of_valueAt hs hdynamic hbuffer hvalue
        exact ⟨fault, by simp only [step, hsum, hvalue], hasks.mono (by omega)⟩
      | ok v =>
        left
        cases v with
        | none => exact ⟨r, by simp only [step, hsum, hvalue], by omega⟩
        | some v =>
          refine ⟨⟨r.values.push v, r.shift + s.movement v⟩, by simp only [step, hsum, hvalue], ?_⟩
          show s.size + (r.shift + s.movement v) = _
          rw [Slot.movement_of_not_dynamic hdynamic]
          omega

/-- **All fields**, by induction on the pieces of the complete record: the reader comes to the end
with the shift of the record, or it asks for bytes of the record. -/
lemma run_of_cut (hcut : buffer.toList <+: bytes) (hbuffer : buffer.size < maxSize)
    {slots : List Slot} {pieces : List (List UInt8)}
    (hfills : List.Forall₂ Slot.Fills slots pieces) (hproper : ∀ s ∈ slots, s.field.Proper)
    {r : Reader} {offset : ℕ} {front back : List UInt8} (htiled : Tiled offset slots)
    (hbytes : bytes = front ++ (pieces.flatten ++ back))
    (hposition : front.length = offset + r.shift)
    (hbound : front.length + pieces.flatten.length ≤ maxSize) :
    (∃ r', r.run buffer slots = .ok r' ∧
        staticSize slots + r'.shift = r.shift + pieces.flatten.length) ∨
      ∃ fault, r.run buffer slots = .error fault ∧
        fault.Asks buffer (front.length + pieces.flatten.length) := by
  induction hfills generalizing r offset front with
  | nil => exact Or.inl ⟨r, rfl, by simp⟩
  | @cons s piece slots pieces hpiece _ ih =>
    obtain ⟨rfl, htiled⟩ := htiled
    obtain ⟨hs, hproper⟩ := List.forall_mem_cons.mp hproper
    rw [List.flatten_cons, List.length_append] at hbound ⊢
    rw [List.flatten_cons, List.append_assoc] at hbytes
    rcases r.step_of_cut hcut hbuffer hs hpiece hbytes hposition (by omega) with
      ⟨next, hstep, hshift⟩ | ⟨fault, hstep, hasks⟩
    · have hsplit : bytes = (front ++ piece) ++ (pieces.flatten ++ back) := by
        rw [hbytes]
        simp
      have hlength : (front ++ piece).length = front.length + piece.length := List.length_append
      have hnext : (front ++ piece).length = s.offset + s.size + next.shift := by omega
      rcases ih hproper htiled hsplit hnext (by omega) with
        ⟨r', hrun, hend⟩ | ⟨fault, hrun, hasks⟩
      · refine Or.inl ⟨r', by simp only [run, hstep, hrun], ?_⟩
        rw [staticSize_cons]
        omega
      · refine Or.inr ⟨fault, by simp only [run, hstep, hrun], hasks.mono (by omega)⟩
    · exact Or.inr ⟨fault, by simp only [run, hstep], hasks.mono (by omega)⟩

end Reader

end

namespace Layout

variable {l : Layout} {full buffer : Array UInt8} {values : List Value} {consumed : ℕ}

/-- Only the bytes of the record matter. -/
lemma unpackFront_of_same_front (hl : l.WellFormed)
    (h : l.unpackFront full = .ok (values, consumed))
    (hfront : full.toList.take consumed <+: buffer.toList) :
    l.unpackFront buffer = .ok (values, consumed) := by
  obtain ⟨pieces, rest, hfull, hfills, rfl, rfl, hle⟩ := (unpackFront_eq_ok_iff hl).mp h
  rw [hfull, List.take_left] at hfront
  obtain ⟨more, hmore⟩ := hfront
  exact (unpackFront_eq_ok_iff hl).mpr ⟨pieces, more, hmore.symm, hfills, rfl, rfl, hle⟩

/-- **A record that was cut off asks for its own bytes**, for at least one that is missing and none
behind its end. -/
theorem unpackFront_of_cut (hl : l.WellFormed) (h : l.unpackFront full = .ok (values, consumed))
    (hcut : buffer.toList <+: full.toList) (hshort : buffer.size < consumed) :
    ∃ fault, l.unpackFront buffer = .error fault ∧ fault.Asks buffer consumed := by
  obtain ⟨pieces, rest, hfull, hfills, rfl, rfl, hle⟩ := (unpackFront_eq_ok_iff hl).mp h
  have hbytes : full.toList = [] ++ (pieces.flatten ++ rest) := hfull
  have hstart : ([] : List UInt8).length = 0 + Reader.start.shift := rfl
  rcases Reader.run_of_cut hcut (by omega) hfills hl.proper hl.tiled hbytes hstart
    (by simpa using hle) with ⟨r, hrun, hend⟩ | ⟨fault, hrun, hasks⟩
  · -- All fields have been passed, and the end of the record is what is missing.
    have hshift : Reader.start.shift = 0 := rfl
    have hsum : addSize? l.size r.shift = some pieces.flatten.length := by
      rw [addSize?_eq_some_iff, hl.size_eq]
      omega
    refine ⟨truncated buffer pieces.flatten.length, ?_, _, rfl, hshort, le_rfl⟩
    simp only [unpackFront, hrun, hsum, hshort, if_true]
  · refine ⟨fault, by simp only [unpackFront, hrun], ?_⟩
    simpa using hasks

/-- A record that was read lies within the buffer. -/
lemma consumed_le_size (h : l.unpackFront buffer = .ok (values, consumed)) :
    consumed ≤ buffer.size := by
  unfold unpackFront at h
  split at h
  · cases h
  · split at h
    · cases h
    · split at h
      · cases h
      · next hroom =>
        obtain ⟨-, rfl⟩ := Prod.mk.inj (Except.ok.inj h)
        omega

/-- **Records can be read as they arrive.**  A record that was read is read from its own bytes
alone, whatever follows them, and every part of it that ends earlier asks for bytes that are missing
from the record.  And where reading fails, it asks for more bytes than there are, and never for more
than the record has when it is complete. -/
theorem unpackFront_as_it_arrives (room : Room) (format : String) (l : Layout)
    (hl : compileWithin room format = .ok l) (buffer : Array UInt8)
    (hbuffer : buffer.size < maxSize) :
    (∀ values consumed, l.unpackFront buffer = .ok (values, consumed) →
      consumed ≤ buffer.size ∧
      (∀ more, l.unpackFront (buffer.extract 0 consumed ++ more) = .ok (values, consumed)) ∧
      ∀ k < consumed, ∃ needed, l.unpackFront (buffer.extract 0 k) = .error (.truncated needed k) ∧
        k < needed ∧ needed ≤ consumed) ∧
    ∀ fault, l.unpackFront buffer = .error fault →
      ∃ needed, fault = .truncated needed buffer.size ∧ buffer.size < needed ∧
        ∀ more values consumed, l.unpackFront (buffer ++ more) = .ok (values, consumed) →
          needed ≤ consumed := by
  have hwf := wellFormed_of_compile hl
  have hpart (k : ℕ) : (buffer.extract 0 k).toList = buffer.toList.take k := by simp
  constructor
  · intro values consumed h
    have hle := consumed_le_size h
    refine ⟨hle, ?_, ?_⟩
    · intro more
      apply unpackFront_of_same_front hwf h
      rw [Array.toList_append, hpart]
      exact List.prefix_append _ _
    · intro k hk
      have hcut : (buffer.extract 0 k).toList <+: buffer.toList := by
        rw [hpart]
        exact List.take_prefix k _
      have hsize : (buffer.extract 0 k).size = k := by
        rw [Array.size_extract]
        omega
      obtain ⟨fault, hfault, needed, rfl, hmissing, hneeded⟩ :=
        unpackFront_of_cut hwf h hcut (by omega)
      rw [hsize] at hfault hmissing
      exact ⟨needed, hfault, hmissing, hneeded⟩
  · intro fault h
    obtain ⟨needed, rfl, hmissing, -⟩ := asks_of_unpackFront hwf hbuffer h
    refine ⟨needed, rfl, hmissing, ?_⟩
    intro more values consumed hmore
    have hcut : buffer.toList <+: (buffer ++ more).toList := by
      rw [Array.toList_append]
      exact List.prefix_append _ _
    -- Had the buffer the whole record, it could be read from the buffer.
    have hshort : buffer.size < consumed := by
      by_contra hle
      have hfront : (buffer ++ more).toList.take consumed <+: buffer.toList := by
        rw [Array.toList_append, List.take_append_of_le_length (by simpa using hle)]
        exact List.take_prefix _ _
      rw [unpackFront_of_same_front hwf hmore hfront] at h
      cases h
    obtain ⟨fault, hfault, needed', rfl, -, hneeded⟩ := unpackFront_of_cut hwf hmore hcut hshort
    rw [h] at hfault
    obtain ⟨rfl, -⟩ := UnpackFault.truncated.inj (Except.error.inj hfault)
    exact hneeded

/-- A record in parts, with a pad that is never looked at: each part asks for bytes of the record,
and two bytes of which the first announces five ask for the six that a dynamic string then has. -/
theorem unpackFront_as_it_arrives_padded :
    (∀ k < 8, ∃ needed,
      (ofFields "S 3x H" [⟨.dynamic, 1⟩, ⟨.pad, 3⟩, ⟨.uint16, 1⟩]).unpackFront
          ((#[2, 7, 8, 0, 0, 0, 1, 0, 9] : Array UInt8).extract 0 k) =
        .error (.truncated needed k) ∧ k < needed ∧ needed ≤ 8) ∧
    ∀ more values consumed,
      (ofFields "S 3x H" [⟨.dynamic, 1⟩, ⟨.pad, 3⟩, ⟨.uint16, 1⟩]).unpackFront (#[5, 1] ++ more) =
        .ok (values, consumed) → 6 ≤ consumed := by
  have hl : compileWithin .standard "S 3x H" =
      .ok (ofFields "S 3x H" [⟨.dynamic, 1⟩, ⟨.pad, 3⟩, ⟨.uint16, 1⟩]) := rfl
  constructor
  · have hwhole := (unpackFront_as_it_arrives .standard "S 3x H" _ hl
      #[2, 7, 8, 0, 0, 0, 1, 0, 9] (by decide)).1
    exact (hwhole [.bytes [7, 8], .uint 1] 8 (by decide +kernel)).2.2
  · have hpart := (unpackFront_as_it_arrives .standard "S 3x H" _ hl #[5, 1] (by decide)).2
    obtain ⟨needed, hneeded, -, hsound⟩ := hpart (.truncated 6 2) (by decide +kernel)
    obtain ⟨rfl, -⟩ := UnpackFault.truncated.inj hneeded
    exact hsound

end Layout

end PackedRecord
