import Mathlib
import PackedRecord.Unpacking
import PackedRecord.Proofs.Wire.Encoding

/-!
# The reader takes a record apart

Read backwards, a record is any string of bytes that falls into one piece for each field.  Which
pieces a field can have is a matter of length alone (`Slot.Fills`): a dynamic string is a length
byte and as many bytes as it says, every other field has its static size.  What the bytes are then
decides the value (`Slot.decode?`), and no bytes are refused.

The reader finds exactly these pieces.  Like the writer it works with static offsets and a shift,
and its invariant is the same: the place of the next field is the offset plus the shift, and all
bytes in front of it belong to the pieces read so far.  Where the bytes fall into pieces the reader
reads them (`Reader.run_of_fills`).  Conversely, a reader that has come to the end without a fault,
and within the buffer, has read pieces (`Reader.fills_of_run`); the bytes that it passes over
without a look are in the buffer because the shift never decreases.  So `Layout.unpack_eq_ok_iff`
describes unpacking without reference to the way it is done.
-/

namespace PackedRecord

/-! ## Pieces -/

namespace Slot

/-- The pieces that a field can have in a record. -/
def Fills (s : Slot) (piece : List UInt8) : Prop :=
  if s.tag = .dynamic then ∃ m content, piece = m :: content ∧ content.length = m.toNat
  else piece.length = s.size

/-- The value of a field with a given piece; a pad has none. -/
def decode? (s : Slot) (piece : List UInt8) : Option Value :=
  match s.tag.kind with
  | .signedInt => some (.int (Word.signExtend (Word.toUInt64 piece) s.tag.width))
  | .unsignedInt => some (.uint (Word.toUInt64 piece))
  | .float32 => some (.float (Binary64.widen ⟨(Word.toUInt64 piece).toUInt32⟩))
  | .float64 => some (.float ⟨Word.toUInt64 piece⟩)
  | .bool => some (.bool (decide (Word.ofDigits piece ≠ 0)))
  | .char | .fixedBytes => some (.bytes piece)
  | .pascalString =>
    match piece with
    | [] => some (.bytes [])
    | m :: content => some (.bytes (content.take (min m.toNat (s.count - 1))))
  | .dynamicString => some (.bytes piece.tail)
  | .pad => none

lemma fills_of_not_dynamic {s : Slot} (hs : s.tag ≠ .dynamic) {piece : List UInt8} :
    s.Fills piece ↔ piece.length = s.size := by
  rw [Fills, if_neg hs]

lemma fills_of_dynamic {s : Slot} (hs : s.tag = .dynamic) {piece : List UInt8} :
    s.Fills piece ↔ ∃ m content, piece = m :: content ∧ content.length = m.toNat := by
  rw [Fills, if_pos hs]

lemma length_of_fills {s : Slot} {piece : List UInt8} (hfills : s.Fills piece)
    (hs : s.tag ≠ .dynamic) : piece.length = s.size :=
  (fills_of_not_dynamic hs).mp hfills

/-- What a piece is, by the kind of its field. -/
lemma fills_iff {s : Slot} (hs : s.field.Proper) {piece : List UInt8} :
    s.Fills piece ↔
      match s.tag.kind with
      | .signedInt | .unsignedInt => piece.length = s.tag.width
      | .float32 => piece.length = 4
      | .float64 => piece.length = 8
      | .bool | .char => piece.length = 1
      | .fixedBytes | .pascalString | .pad => piece.length = s.count
      | .dynamicString => ∃ m content, piece = m :: content ∧ content.length = m.toNat := by
  have hsize := size_of_proper hs
  simp only [Fills, Tag.eq_dynamic_iff]
  cases hk : s.tag.kind with
  | dynamicString => simp only [if_true]
  | signedInt | unsignedInt | float32 | float64 | bool | char | fixedBytes | pascalString | pad =>
    simp only [hk] at hsize
    simp only [reduceCtorEq, if_false, hsize]

lemma movement_of_not_dynamic {s : Slot} (hs : s.tag ≠ .dynamic) (v : Value) :
    s.movement v = 0 := by
  unfold movement
  split
  · contradiction
  · rfl

/-- A dynamic string moves the fields after it by its whole piece, any other field by nothing. -/
lemma size_add_movement {s : Slot} (hs : s.field.Proper) {piece : List UInt8}
    (hfills : s.Fills piece) {v : Value} (hv : s.decode? piece = some v) :
    s.size + s.movement v = piece.length := by
  by_cases hdynamic : s.tag = .dynamic
  · obtain ⟨m, content, rfl, -⟩ := (fills_of_dynamic hdynamic).mp hfills
    simp only [decode?, Tag.eq_dynamic_iff.mp hdynamic] at hv
    obtain rfl := Option.some.inj hv
    simp [size_of_dynamic hs hdynamic, movement, hdynamic]
  · rw [movement_of_not_dynamic hdynamic, length_of_fills hfills hdynamic]
    rfl

lemma decode?_eq_none_iff {s : Slot} {piece : List UInt8} :
    s.decode? piece = none ↔ s.tag.hasValue = false := by
  rw [Tag.hasValue_eq_false_iff]
  cases hk : s.tag.kind with
  | pascalString => cases piece <;> simp [decode?, hk]
  | signedInt | unsignedInt | float32 | float64 | bool | char | fixedBytes | dynamicString
  | pad => simp [decode?, hk]

end Slot

/-- The values of the pieces of a record. -/
def decoded (slots : List Slot) (pieces : List (List UInt8)) : List Value :=
  (slots.zip pieces).filterMap fun p => p.1.decode? p.2

@[simp] lemma decoded_nil : decoded [] [] = [] := rfl

@[simp] lemma decoded_cons (s : Slot) (slots : List Slot) (piece : List UInt8)
    (pieces : List (List UInt8)) :
    decoded (s :: slots) (piece :: pieces) =
      (s.decode? piece).toList ++ decoded slots pieces := by
  cases h : s.decode? piece <;> simp [decoded, h]

/-! ## Reading one field -/

/-- A slice of the bytes behind `front` is what stands there. -/
lemma slice_eq_ok {buffer : Array UInt8} {front bs back : List UInt8} {position n : ℕ}
    (hbuffer : buffer.toList = front ++ (bs ++ back)) (hposition : position = front.length)
    (hn : n = bs.length) : slice buffer position n = .ok bs := by
  have hsize : buffer.size = front.length + (bs.length + back.length) := by
    rw [← Array.length_toList, hbuffer]
    simp
  rw [slice, if_pos (by omega), Array.toList_extract, hbuffer, hposition, hn]
  simp

/-- A slice that was read stands there, in full length. -/
lemma exists_of_slice {buffer : Array UInt8} {front back bs : List UInt8} {position n : ℕ}
    (hbuffer : buffer.toList = front ++ back) (hposition : position = front.length)
    (h : slice buffer position n = .ok bs) : ∃ rest, back = bs ++ rest ∧ bs.length = n := by
  have hsize : buffer.size = front.length + back.length := by
    rw [← Array.length_toList, hbuffer]
    simp
  unfold slice at h
  split at h
  · next hle =>
    have hbs : back.take n = bs := by
      rw [← Except.ok.inj h, Array.toList_extract, hbuffer, hposition]
      simp
    refine ⟨back.drop n, ?_, ?_⟩
    · rw [← hbs, List.take_append_drop]
    · rw [← hbs, List.length_take]
      omega
  · cases h

/-- What stands behind `front`, up to the end. -/
lemma toList_extract_behind {buffer : Array UInt8} {front back : List UInt8}
    (hbuffer : buffer.toList = front ++ back) :
    (buffer.extract front.length buffer.size).toList = back := by
  rw [Array.toList_extract, hbuffer, ← Array.length_toList, hbuffer]
  simp

lemma byteAt_eq_ok {buffer : Array UInt8} {front back : List UInt8} {m : UInt8}
    (hbuffer : buffer.toList = front ++ (m :: back)) :
    byteAt buffer front.length = .ok m.toNat := by
  have hslice : slice buffer front.length 1 = .ok [m] := slice_eq_ok hbuffer rfl rfl
  simp [byteAt, hslice, Except.map, Word.ofDigits]

namespace Slot

/-- **A field with its piece in place is read as its value.** -/
theorem valueAt_of_fills {s : Slot} (hs : s.field.Proper) {piece : List UInt8}
    (hfills : s.Fills piece) {buffer : Array UInt8} {front back : List UInt8}
    (hbuffer : buffer.toList = front ++ (piece ++ back)) :
    s.valueAt buffer front.length = .ok (s.decode? piece) := by
  have hpiece := (fills_iff hs).mp hfills
  -- The one slice that most kinds of fields read.
  have hslice {n : ℕ} (hn : piece.length = n) : slice buffer front.length n = .ok piece :=
    slice_eq_ok hbuffer rfl hn.symm
  cases hk : s.tag.kind with
  | signedInt | unsignedInt | float32 | float64 | fixedBytes =>
    simp only [hk] at hpiece
    simp only [valueAt, decode?, hk, wordAt, hslice hpiece, Except.map]
  | bool | char =>
    simp only [hk] at hpiece
    simp only [valueAt, decode?, hk, byteAt, hslice hpiece, Except.map]
  | pascalString =>
    simp only [hk] at hpiece
    cases piece with
    | nil =>
      rw [List.length_nil] at hpiece
      simp only [valueAt, decode?, hk, ← hpiece, if_true]
    | cons m rest =>
      rw [List.length_cons] at hpiece
      have hne : s.count ≠ 0 := by omega
      -- The content is cut to the capacity, and the rest of the capacity is passed over.
      have hcontent : slice buffer (front.length + 1) (min m.toNat (s.count - 1)) =
          .ok (rest.take (min m.toNat (s.count - 1))) := by
        have hsplit : buffer.toList = (front ++ [m]) ++ (rest.take (min m.toNat (s.count - 1)) ++
            (rest.drop (min m.toNat (s.count - 1)) ++ back)) := by
          rw [hbuffer, ← List.append_assoc (rest.take _), List.take_append_drop]
          simp
        refine slice_eq_ok hsplit (by simp) ?_
        rw [List.length_take]
        omega
      simp only [valueAt, decode?, hk, hne, if_false, prefixedAt, byteAt_eq_ok hbuffer, hcontent,
        Except.map]
  | dynamicString =>
    simp only [hk] at hpiece
    obtain ⟨m, content, rfl, hm⟩ := hpiece
    have hmax : min m.toNat maxSize = content.length := by
      have hlt := m.toNat_lt
      rw [hm, min_eq_left]
      unfold maxSize
      omega
    have hsplit : buffer.toList = (front ++ [m]) ++ (content ++ back) := by
      rw [hbuffer]
      simp
    have hcontent : slice buffer (front.length + 1) (min m.toNat maxSize) = .ok content :=
      slice_eq_ok hsplit (by simp) hmax
    simp only [valueAt, decode?, hk, prefixedAt, byteAt_eq_ok hbuffer, hcontent, Except.map,
      List.tail_cons]
  | pad => simp only [valueAt, decode?, hk]

/-- A dynamic string that was read is a piece. -/
lemma exists_fills_of_dynamic {s : Slot} (hs : s.tag = .dynamic) {buffer : Array UInt8}
    {front back : List UInt8} (hbuffer : buffer.toList = front ++ back) {v : Option Value}
    (h : s.valueAt buffer front.length = .ok v) :
    ∃ piece rest, back = piece ++ rest ∧ s.Fills piece := by
  simp only [valueAt, Tag.eq_dynamic_iff.mp hs, prefixedAt] at h
  cases hbyte : byteAt buffer front.length with
  | error fault =>
    rw [hbyte] at h
    cases h
  | ok n =>
    obtain ⟨bs, hbs, hn⟩ := map_eq_ok hbyte
    obtain ⟨rest, rfl, hone⟩ := exists_of_slice hbuffer rfl hbs
    obtain ⟨m, rfl⟩ := List.length_eq_one_iff.mp hone
    have hm : n = m.toNat := by rw [← hn]; simp [Word.ofDigits]
    simp only [hbyte] at h
    obtain ⟨content, hcontent, -⟩ := map_eq_ok h
    have hsplit : buffer.toList = (front ++ [m]) ++ rest := by
      rw [hbuffer]
      simp
    obtain ⟨rest, rfl, hlength⟩ := exists_of_slice hsplit (by simp) hcontent
    refine ⟨m :: content, rest, rfl, (fills_of_dynamic hs).mpr ⟨m, content, rfl, ?_⟩⟩
    have hlt := m.toNat_lt
    rw [hlength, hm, min_eq_left]
    unfold maxSize
    omega

end Slot

/-! ## The invariant of the reader -/

namespace Reader

/-- What the reader is after a field with a given piece. -/
def advance (r : Reader) (s : Slot) (piece : List UInt8) : Reader :=
  match s.decode? piece with
  | none => r
  | some v => ⟨r.values.push v, r.shift + s.movement v⟩

lemma values_advance (r : Reader) (s : Slot) (piece : List UInt8) :
    (r.advance s piece).values.toList = r.values.toList ++ (s.decode? piece).toList := by
  unfold advance
  cases s.decode? piece <;> simp

/-- The offset of the next field and the new shift lead behind the piece. -/
lemma size_add_shift_advance (r : Reader) {s : Slot} (hs : s.field.Proper) {piece : List UInt8}
    (hfills : s.Fills piece) :
    s.size + (r.advance s piece).shift = r.shift + piece.length := by
  unfold advance
  cases hv : s.decode? piece with
  | none =>
    have hpad : s.tag.hasValue = false := Slot.decode?_eq_none_iff.mp hv
    have hne : s.tag ≠ .dynamic := by
      intro heq
      rw [heq] at hpad
      cases hpad
    rw [Slot.length_of_fills hfills hne, Nat.add_comm]
  | some v =>
    have hmove := Slot.size_add_movement hs hfills hv
    show s.size + (r.shift + s.movement v) = _
    omega

/-- The reader takes a piece where it stands. -/
lemma step_of_fills (r : Reader) {s : Slot} (hs : s.field.Proper) {piece : List UInt8}
    (hfills : s.Fills piece) {buffer : Array UInt8} {front back : List UInt8}
    (hbuffer : buffer.toList = front ++ (piece ++ back))
    (hposition : front.length = s.offset + r.shift) (hbound : front.length ≤ maxSize) :
    r.step buffer s = .ok (r.advance s piece) := by
  have hsum : addSize? s.offset r.shift = some front.length := by
    rw [addSize?, ← hposition, if_pos hbound]
  simp only [step, hsum, Slot.valueAt_of_fills hs hfills hbuffer, advance]
  cases s.decode? piece <;> rfl

/-- **Pieces are read.**  Where the bytes behind the reader fall into pieces, it takes all of
them. -/
theorem run_of_fills {slots : List Slot} {pieces : List (List UInt8)}
    (hfills : List.Forall₂ Slot.Fills slots pieces) (hproper : ∀ s ∈ slots, s.field.Proper)
    {buffer : Array UInt8} {r : Reader} {offset : ℕ} {front back : List UInt8}
    (htiled : Tiled offset slots) (hbuffer : buffer.toList = front ++ (pieces.flatten ++ back))
    (hposition : front.length = offset + r.shift)
    (hbound : front.length + pieces.flatten.length ≤ maxSize) :
    ∃ r', r.run buffer slots = .ok r' ∧
      r'.values.toList = r.values.toList ++ decoded slots pieces ∧
      staticSize slots + r'.shift = r.shift + pieces.flatten.length := by
  induction hfills generalizing r offset front with
  | nil => exact ⟨r, rfl, by simp, by simp⟩
  | @cons s piece slots pieces hpiece _ ih =>
    obtain ⟨rfl, htiled⟩ := htiled
    obtain ⟨hs, hproper⟩ := List.forall_mem_cons.mp hproper
    rw [List.flatten_cons, List.append_assoc] at hbuffer
    rw [List.flatten_cons, List.length_append] at hbound
    have hstep := r.step_of_fills hs hpiece hbuffer hposition (by omega)
    have hshift := r.size_add_shift_advance hs hpiece
    have hsplit : buffer.toList = (front ++ piece) ++ (pieces.flatten ++ back) := by
      rw [hbuffer]
      simp
    have hnext : (front ++ piece).length = s.offset + s.size + (r.advance s piece).shift := by
      rw [List.length_append]
      omega
    obtain ⟨r', hrun, hvalues, hend⟩ := ih hproper htiled hsplit hnext
      (by rw [List.length_append]; omega)
    refine ⟨r', ?_, ?_, ?_⟩
    · simp only [run, hstep, hrun]
    · rw [hvalues, values_advance, decoded_cons, List.append_assoc]
    · rw [staticSize_cons, List.flatten_cons, List.length_append]
      omega

/-- The shift never decreases. -/
lemma shift_le_of_step {buffer : Array UInt8} {r r' : Reader} {s : Slot}
    (h : r.step buffer s = .ok r') : r.shift ≤ r'.shift := by
  unfold step at h
  split at h
  · cases h
  · split at h
    · cases h
    · rw [Except.ok.inj h]
    · rw [← Except.ok.inj h]
      exact Nat.le_add_right _ _

lemma shift_le_of_run {buffer : Array UInt8} {slots : List Slot} {r r' : Reader}
    (h : r.run buffer slots = .ok r') : r.shift ≤ r'.shift := by
  induction slots generalizing r with
  | nil => rw [Except.ok.inj h]
  | cons s slots ih =>
    rw [run] at h
    cases hstep : r.step buffer s with
    | error fault =>
      rw [hstep] at h
      cases h
    | ok next =>
      rw [hstep] at h
      exact (shift_le_of_step hstep).trans (ih h)

/-- A field that was read has its piece in the buffer, if there is room for its static bytes. -/
lemma exists_fills_of_step {buffer : Array UInt8} {r r' : Reader} {s : Slot}
    (h : r.step buffer s = .ok r') {front back : List UInt8}
    (hbuffer : buffer.toList = front ++ back) (hposition : front.length = s.offset + r.shift)
    (hroom : s.size ≤ back.length) :
    front.length ≤ maxSize ∧ ∃ piece rest, back = piece ++ rest ∧ s.Fills piece := by
  unfold step at h
  split at h
  · cases h
  · next position hsum =>
    obtain ⟨hle, rfl⟩ := addSize?_eq_some_iff.mp hsum
    rw [← hposition] at h hle
    refine ⟨hle, ?_⟩
    by_cases hdynamic : s.tag = .dynamic
    · cases hvalue : s.valueAt buffer front.length with
      | error fault =>
        rw [hvalue] at h
        cases h
      | ok v => exact Slot.exists_fills_of_dynamic hdynamic hbuffer hvalue
    · refine ⟨back.take s.size, back.drop s.size, (List.take_append_drop _ _).symm, ?_⟩
      rw [Slot.fills_of_not_dynamic hdynamic, List.length_take]
      omega

/-- **What was read are pieces**, provided that the record ends within the buffer. -/
theorem fills_of_run {slots : List Slot} (hproper : ∀ s ∈ slots, s.field.Proper)
    {buffer : Array UInt8} {r r' : Reader} {offset : ℕ} {front back : List UInt8}
    (htiled : Tiled offset slots) (hrun : r.run buffer slots = .ok r')
    (hbuffer : buffer.toList = front ++ back) (hposition : front.length = offset + r.shift)
    (hend : offset + staticSize slots + r'.shift ≤ buffer.size) :
    ∃ pieces rest, back = pieces.flatten ++ rest ∧ List.Forall₂ Slot.Fills slots pieces ∧
      r'.values.toList = r.values.toList ++ decoded slots pieces ∧
      staticSize slots + r'.shift = r.shift + pieces.flatten.length := by
  induction slots generalizing r offset front back with
  | nil =>
    obtain rfl := Except.ok.inj hrun
    exact ⟨[], back, by simp, .nil, by simp, by simp⟩
  | cons s slots ih =>
    obtain ⟨rfl, htiled⟩ := htiled
    obtain ⟨hs, hproper⟩ := List.forall_mem_cons.mp hproper
    have hsize : buffer.size = front.length + back.length := by
      rw [← Array.length_toList, hbuffer, List.length_append]
    rw [staticSize_cons] at hend
    rw [run] at hrun
    cases hstep : r.step buffer s with
    | error fault =>
      rw [hstep] at hrun
      cases hrun
    | ok next =>
      rw [hstep] at hrun
      have hshift := (shift_le_of_step hstep).trans (shift_le_of_run hrun)
      obtain ⟨hbound, piece, rest, rfl, hpiece⟩ :=
        exists_fills_of_step hstep hbuffer hposition (by omega)
      -- With its piece in place, the step is the one known for it.
      rw [r.step_of_fills hs hpiece hbuffer hposition hbound] at hstep
      obtain rfl := Except.ok.inj hstep
      have hmove := r.size_add_shift_advance hs hpiece
      have hsplit : buffer.toList = (front ++ piece) ++ rest := by
        rw [hbuffer]
        simp
      have hnext : (front ++ piece).length = s.offset + s.size + (r.advance s piece).shift := by
        rw [List.length_append]
        omega
      obtain ⟨pieces, rest, rfl, hfills, hvalues, hlength⟩ :=
        ih hproper htiled hrun hsplit hnext (by omega)
      refine ⟨piece :: pieces, rest, by simp, .cons hpiece hfills, ?_, ?_⟩
      · rw [hvalues, values_advance, decoded_cons, List.append_assoc]
      · rw [staticSize_cons, List.flatten_cons, List.length_append]
        omega

end Reader

/-! ## Unpacking -/

/-- Without dynamic strings the pieces are as long as the static region. -/
lemma length_flatten_of_static {slots : List Slot} {pieces : List (List UInt8)}
    (hfills : List.Forall₂ Slot.Fills slots pieces) (hstatic : ∀ s ∈ slots, s.tag ≠ .dynamic) :
    pieces.flatten.length = staticSize slots := by
  induction hfills with
  | nil => rfl
  | @cons s piece slots pieces hpiece _ ih =>
    obtain ⟨hs, hslots⟩ := List.forall_mem_cons.mp hstatic
    rw [List.flatten_cons, List.length_append, staticSize_cons, Slot.length_of_fills hpiece hs,
      ih hslots]

namespace Layout

/-- **Reading the front of a buffer** finds the pieces of one record there, and fails exactly where
there are none, or where they are longer together than a size can be. -/
theorem unpackFront_eq_ok_iff {l : Layout} (hl : l.WellFormed) {buffer : Array UInt8}
    {values : List Value} {consumed : ℕ} :
    l.unpackFront buffer = .ok (values, consumed) ↔
      ∃ pieces rest, buffer.toList = pieces.flatten ++ rest ∧
        List.Forall₂ Slot.Fills l.slots pieces ∧ values = decoded l.slots pieces ∧
        consumed = pieces.flatten.length ∧ consumed ≤ maxSize := by
  constructor
  · intro h
    unfold unpackFront at h
    split at h
    · cases h
    · next r hrun =>
      split at h
      · cases h
      · next total hsum =>
        obtain ⟨hle, rfl⟩ := addSize?_eq_some_iff.mp hsum
        split at h
        · cases h
        · next hroom =>
          rw [hl.size_eq] at h hle hroom
          obtain ⟨rfl, rfl⟩ := Prod.mk.inj (Except.ok.inj h)
          obtain ⟨pieces, rest, hbuffer, hfills, hvalues, hlength⟩ :=
            Reader.fills_of_run hl.proper hl.tiled hrun (List.nil_append buffer.toList).symm
              (by simp [Reader.start]) (by omega)
          have hstart : Reader.start.shift = 0 := rfl
          refine ⟨pieces, rest, hbuffer, hfills, ?_, by omega, hle⟩
          rw [hvalues]
          rfl
  · rintro ⟨pieces, rest, hbuffer, hfills, rfl, rfl, hle⟩
    have hstart : Reader.start.shift = 0 := rfl
    have hfront : buffer.toList = [] ++ (pieces.flatten ++ rest) := hbuffer
    have hposition : ([] : List UInt8).length = 0 + Reader.start.shift := rfl
    obtain ⟨r, hrun, hvalues, hlength⟩ := Reader.run_of_fills hfills hl.proper hl.tiled hfront
      hposition (by rw [List.length_nil]; omega)
    have hsum : addSize? l.size r.shift = some pieces.flatten.length := by
      rw [addSize?_eq_some_iff, hl.size_eq]
      omega
    have hsize : ¬ buffer.size < pieces.flatten.length := by
      rw [← Array.length_toList, hbuffer, List.length_append]
      omega
    simp only [unpackFront, hrun, hsum, hsize, if_false, hvalues]
    rfl

/-- A buffer is a record exactly where the record at its front is all of it. -/
theorem unpack_eq_ok_iff_unpackFront {l : Layout} (hl : l.WellFormed) {buffer : Array UInt8}
    {values : List Value} :
    l.unpack buffer = .ok values ↔ l.unpackFront buffer = .ok (values, buffer.size) := by
  constructor
  · intro h
    unfold unpack at h
    split at h
    · cases h
    · split at h
      · cases h
      · next found consumed hfront =>
        split at h
        · cases h
        · next hconsumed => rw [hfront, Except.ok.inj h, not_not.mp hconsumed]
  · intro hfront
    have hgate : ¬ (l.dynamic = false ∧ buffer.size ≠ l.size) := by
      rintro ⟨hdynamic, hne⟩
      obtain ⟨pieces, -, -, hfills, -, hsize, -⟩ := (unpackFront_eq_ok_iff hl).mp hfront
      apply hne
      rw [hsize, hl.size_eq, length_flatten_of_static hfills (hl.static_iff.mp hdynamic)]
    simp only [unpack, hgate, if_false, hfront, ne_eq, not_true]

/-- **Unpacking takes a buffer apart into the pieces of a record**, and fails exactly where there is
no such way to take it apart. -/
theorem unpack_eq_ok_iff {l : Layout} (hl : l.WellFormed) {buffer : Array UInt8}
    {values : List Value} :
    l.unpack buffer = .ok values ↔
      ∃ pieces, buffer.toList = pieces.flatten ∧ List.Forall₂ Slot.Fills l.slots pieces ∧
        values = decoded l.slots pieces ∧ buffer.size ≤ maxSize := by
  rw [unpack_eq_ok_iff_unpackFront hl, unpackFront_eq_ok_iff hl]
  constructor
  · rintro ⟨pieces, rest, hbuffer, hfills, hvalues, hsize, hle⟩
    have hlength : buffer.size = pieces.flatten.length + rest.length := by
      rw [← Array.length_toList, hbuffer, List.length_append]
    obtain rfl : rest = [] := List.length_eq_zero_iff.mp (by omega)
    exact ⟨pieces, by simpa using hbuffer, hfills, hvalues, hle⟩
  · rintro ⟨pieces, hbuffer, hfills, hvalues, hle⟩
    refine ⟨pieces, [], by simpa using hbuffer, hfills, hvalues, ?_, hle⟩
    rw [← Array.length_toList, hbuffer]

end Layout

end PackedRecord
