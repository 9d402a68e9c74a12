import Mathlib
import PackedRecord.Proofs.Layout.Tiling
import PackedRecord.Proofs.Stream.Partition
import PackedRecord.Proofs.Wire.Shortfall

/-!
# The reader stays in range

The bytes of a buffer may come from anyone, and they decide how far the reader moves.  It checks
what it must, the sum of an offset and the shift and the end of every slice; the rest of its
arithmetic it does without a look.  That nothing there can leave the range of sizes, or of the
buffer, is collected in `Reader.SafeAt` for the reader that has come to a field.

The bound that carries it is that the shift is never more than the bytes of the buffer: a dynamic
string adds to it what it occupies, and all of that lies in the buffer, behind what was added
before.  One field keeps the bound (`Reader.shift_le_size_of_step`), and so do all fields before the
one that the reader has come to (`Reader.shift_le_size_of_run`).  Where the checked sum is no size
the reader says so, with the largest size there is (`Layout.unpackFront_of_beyond`).
-/

namespace PackedRecord

/-! ## What was read is in the buffer -/

section

variable {buffer : Array UInt8} {position limit n : ℕ} {bs : List UInt8}

lemma length_of_slice (h : slice buffer position n = .ok bs) : bs.length = n := by
  have hle := le_size_of_slice h
  rw [slice, if_pos hle] at h
  rw [← Except.ok.inj h, Array.length_toList, Array.size_extract]
  omega

/-- A length byte that was read is a byte, and one of the buffer. -/
lemma bounds_of_byteAt (h : byteAt buffer position = .ok n) :
    position + 1 ≤ buffer.size ∧ n ≤ 255 := by
  obtain ⟨bs, hbs, rfl⟩ := map_eq_ok h
  have hlt := Word.ofDigits_lt bs
  rw [length_of_slice hbs] at hlt
  exact ⟨le_size_of_slice hbs, Nat.le_of_lt_succ hlt⟩

lemma exists_of_prefixedAt (h : prefixedAt buffer position limit = .ok bs) :
    ∃ n, byteAt buffer position = .ok n ∧ bs.length = min n limit ∧
      position + 1 + min n limit ≤ buffer.size := by
  unfold prefixedAt at h
  split at h
  · cases h
  · next n hn => exact ⟨n, hn, length_of_slice h, le_size_of_slice h⟩

end

namespace Reader

variable {buffer : Array UInt8} {r r' : Reader} {s : Slot} {slots : List Slot}

/-! ## How far the reader moves -/

/-- A dynamic string moves the reader by its length byte and as many bytes as that says, all of them
in the buffer. -/
lemma shift_of_step_dynamic (h : r.step buffer s = .ok r') (hs : s.tag = .dynamic) :
    ∃ n ≤ 255, byteAt buffer (s.offset + r.shift) = .ok n ∧ r'.shift = r.shift + (n + 1) ∧
      s.offset + r.shift + 1 + n ≤ buffer.size := by
  unfold step at h
  split at h
  · cases h
  · next position hsum =>
    obtain ⟨-, rfl⟩ := addSize?_eq_some_iff.mp hsum
    simp only [Slot.valueAt, Tag.eq_dynamic_iff.mp hs] at h
    cases hread : prefixedAt buffer (s.offset + r.shift) maxSize with
    | error fault => simp [hread, Except.map] at h
    | ok bs =>
      simp only [hread, Except.map] at h
      obtain ⟨n, hbyte, hlength, hend⟩ := exists_of_prefixedAt hread
      obtain ⟨-, hn⟩ := bounds_of_byteAt hbyte
      have hmin : min n maxSize = n := min_eq_left (hn.trans (by decide))
      rw [hmin] at hlength hend
      refine ⟨n, hn, hbyte, ?_, hend⟩
      rw [← Except.ok.inj h, ← hlength]
      simp only [Slot.movement, hs]

/-- Any other field moves it by nothing. -/
lemma shift_of_step_static (h : r.step buffer s = .ok r') (hs : s.tag ≠ .dynamic) :
    r'.shift = r.shift := by
  unfold step at h
  split at h
  · cases h
  · split at h
    · cases h
    · rw [Except.ok.inj h]
    · rw [← Except.ok.inj h, Slot.movement_of_not_dynamic hs, Nat.add_zero]

/-- **One field keeps the shift within the bytes of the buffer.** -/
theorem shift_le_size_of_step (hr : r.shift ≤ buffer.size) (h : r.step buffer s = .ok r') :
    r'.shift ≤ buffer.size := by
  by_cases hs : s.tag = .dynamic
  · obtain ⟨n, -, -, hshift, hend⟩ := shift_of_step_dynamic h hs
    omega
  · rwa [shift_of_step_static h hs]

/-- The shift stays within the bytes of the buffer, by induction on the fields. -/
theorem shift_le_size_of_run (hr : r.shift ≤ buffer.size) (h : r.run buffer slots = .ok r') :
    r'.shift ≤ buffer.size := by
  induction slots generalizing r with
  | nil => rwa [← Except.ok.inj h]
  | cons s slots ih =>
    rw [run] at h
    cases hstep : r.step buffer s with
    | error fault =>
      rw [hstep] at h
      cases h
    | ok next =>
      rw [hstep] at h
      exact ih (shift_le_size_of_step hr hstep) h

/-! ## Safe places -/

/-- What the reader does without a check, when it has come to a field, stays in range. -/
structure SafeAt (buffer : Array UInt8) (r : Reader) (s : Slot) : Prop where
  /-- The dynamic bytes so far are no more than the buffer has. -/
  shift : r.shift ≤ buffer.size
  /-- A word has the bytes that were asked for, and they fit the eight that it is gathered in. -/
  word : s.tag.width ≤ 8 ∧ ∀ bs, slice buffer (s.offset + r.shift) s.tag.width = .ok bs →
    bs.length = s.tag.width
  /-- A number is moved up and down for its sign by some of the 64 bits, and not by all. -/
  sign : s.tag.kind = .signedInt → 8 * s.tag.width ≤ 64 ∧ 64 - 8 * s.tag.width < 64
  /-- Behind a length byte there is a place to read from. -/
  content : ∀ n, byteAt buffer (s.offset + r.shift) = .ok n →
    s.offset + r.shift + 1 ≤ buffer.size ∧ s.offset + r.shift + 1 ≤ maxSize
  /-- A `p` string has a byte of capacity for its length, or nothing is read of it. -/
  capacity : s.tag.kind = .pascalString →
    1 ≤ s.count ∨ ∀ position, s.valueAt buffer position = .ok (some (.bytes []))
  /-- A dynamic string moves the fields after it by its bytes, and no other field moves any. -/
  movement : ∀ r', r.step buffer s = .ok r' → r'.shift ≤ buffer.size ∧ r'.shift ≤ maxSize ∧
    if s.tag = .dynamic then
      ∃ n ≤ 255, byteAt buffer (s.offset + r.shift) = .ok n ∧ r'.shift = r.shift + (n + 1)
    else r'.shift = r.shift

/-- **The reader is safe at any field**, as long as it is not moved by more bytes than there are. -/
theorem safeAt (hbuffer : buffer.size ≤ maxSize) (hr : r.shift ≤ buffer.size) (s : Slot) :
    SafeAt buffer r s where
  shift := hr
  word := ⟨s.tag.width_le, fun _ h => length_of_slice h⟩
  sign := by
    intro hs
    have hle := s.tag.width_le
    have hpos := Tag.width_pos (Or.inl hs)
    omega
  content := by
    intro n hn
    obtain ⟨hend, -⟩ := bounds_of_byteAt hn
    exact ⟨hend, hend.trans hbuffer⟩
  capacity := by
    intro hs
    by_cases hcount : s.count = 0
    · right
      intro position
      simp only [Slot.valueAt, hs, hcount, if_true]
    · exact Or.inl (Nat.one_le_iff_ne_zero.mpr hcount)
  movement := by
    intro r' h
    have hle := shift_le_size_of_step hr h
    refine ⟨hle, hle.trans hbuffer, ?_⟩
    split
    · next hs =>
      obtain ⟨n, hn, hbyte, hshift, -⟩ := shift_of_step_dynamic h hs
      exact ⟨n, hn, hbyte, hshift⟩
    · next hs => exact shift_of_step_static h hs

/-! ## Places beyond the range of sizes -/

lemma run_append (buffer : Array UInt8) (r : Reader) (slots slots' : List Slot) :
    r.run buffer (slots ++ slots') =
      (r.run buffer slots).bind fun r => r.run buffer slots' := by
  induction slots generalizing r with
  | nil => rfl
  | cons s slots ih =>
    rw [List.cons_append, run, run]
    cases r.step buffer s with
    | error fault => rfl
    | ok next => exact ih next

/-- A field that would stand beyond the largest size is not looked for. -/
lemma run_of_beyond (hbeyond : maxSize < s.offset + r.shift) (slots : List Slot) :
    r.run buffer (s :: slots) = .error (truncated buffer maxSize) := by
  have hnone : addSize? s.offset r.shift = none := if_neg (not_le.mpr hbeyond)
  simp only [run, step, hnone]

end Reader

namespace Layout

variable {l : Layout} {buffer : Array UInt8} {r : Reader}

/-- Where the reader comes to a field beyond the largest size, the answer is that no buffer is long
enough. -/
lemma unpackFront_of_beyond {before after : List Slot} {s : Slot}
    (hsplit : l.slots = before ++ s :: after)
    (hbefore : Reader.start.run buffer before = .ok r) (hbeyond : maxSize < s.offset + r.shift) :
    l.unpackFront buffer = .error (.truncated maxSize buffer.size) := by
  simp only [unpackFront, hsplit, Reader.run_append, hbefore, Except.bind,
    Reader.run_of_beyond hbeyond]
  rfl

/-- So it is where the record would end there. -/
lemma unpackFront_of_end_beyond (hall : Reader.start.run buffer l.slots = .ok r)
    (hbeyond : maxSize < l.size + r.shift) :
    l.unpackFront buffer = .error (.truncated maxSize buffer.size) := by
  have hnone : addSize? l.size r.shift = none := if_neg (not_le.mpr hbeyond)
  simp only [unpackFront, hall, hnone]
  rfl

end Layout

/-! ## Streams -/

namespace RecordStream

/-- A stream keeps its layout, and never has more bytes than before. -/
lemma next_le (s : RecordStream) :
    s.next.2.layout = s.layout ∧ s.next.2.rest.size ≤ s.rest.size := by
  unfold next
  split
  · exact ⟨rfl, le_rfl⟩
  · split
    · exact ⟨rfl, le_rfl⟩
    · split
      · exact ⟨rfl, le_rfl⟩
      · refine ⟨rfl, ?_⟩
        rw [Array.size_extract]
        omega

lemma after_le (n : ℕ) (s : RecordStream) :
    (s.after n).layout = s.layout ∧ (s.after n).rest.size ≤ s.rest.size := by
  induction n generalizing s with
  | zero => exact ⟨rfl, le_rfl⟩
  | succ n ih =>
    obtain ⟨hlayout, hle⟩ := ih s.next.2
    obtain ⟨hlayout', hle'⟩ := s.next_le
    exact ⟨hlayout.trans hlayout', hle.trans hle'⟩

end RecordStream

namespace Layout

/-- **Reading stays in range on any buffer.**  Whatever the bytes, the reader is safe at every field
that it comes to, and so is the end of the record behind the last one.  The static ends of the
fields are sizes, but what they are moved by can take them further: a field or an end beyond the
largest size is answered with a fault that asks for the largest size, and not looked for.  A stream
over the buffer cuts off no more bytes than it has left. -/
theorem unpackFront_in_range (room : Room) (format : String) (l : Layout)
    (hl : compileWithin room format = .ok l) (buffer : Array UInt8)
    (hbuffer : buffer.size ≤ maxSize) :
    (∀ before s after r, l.slots = before ++ s :: after →
        Reader.start.run buffer before = .ok r →
        s.offset + s.size ≤ maxSize ∧ Reader.SafeAt buffer r s ∧
          (maxSize < s.offset + r.shift →
            l.unpackFront buffer = .error (.truncated maxSize buffer.size))) ∧
      (∀ r, Reader.start.run buffer l.slots = .ok r →
        l.size ≤ maxSize ∧ r.shift ≤ buffer.size ∧
          (maxSize < l.size + r.shift →
            l.unpackFront buffer = .error (.truncated maxSize buffer.size))) ∧
      ∀ n, ((l.records buffer).after n).layout = l ∧
        ((l.records buffer).after n).rest.size ≤ buffer.size ∧
        ∀ values consumed,
          l.unpackFront ((l.records buffer).after n).rest = .ok (values, consumed) →
            consumed ≤ ((l.records buffer).after n).rest.size := by
  have hwf := wellFormed_of_compile hl
  have hstart : Reader.start.shift ≤ buffer.size := Nat.zero_le _
  refine ⟨?_, ?_, ?_⟩
  · intro before s after r hsplit hbefore
    have hmem : s ∈ l.slots := by simp [hsplit]
    exact ⟨(hwf.end_le_size hmem).trans hwf.size_le,
      Reader.safeAt hbuffer (Reader.shift_le_size_of_run hstart hbefore) s,
      unpackFront_of_beyond hsplit hbefore⟩
  · intro r hall
    exact ⟨hwf.size_le, Reader.shift_le_size_of_run hstart hall, unpackFront_of_end_beyond hall⟩
  · intro n
    obtain ⟨hlayout, hle⟩ := (l.records buffer).after_le n
    exact ⟨hlayout, hle, fun _ _ h => consumed_le_size h⟩

/-- A string of one byte moves a field over the largest size. -/
theorem unpackFront_in_range_beyond :
    Reader.SafeAt #[1, 7] ⟨#[.bytes [7]], 2⟩ ⟨.uint8, 1, 18446744073709551614⟩ ∧
      (ofFields "S 18446744073709551614x B"
        [⟨.dynamic, 1⟩, ⟨.pad, 18446744073709551614⟩, ⟨.uint8, 1⟩]).unpackFront #[1, 7] =
        .error (.truncated maxSize 2) := by
  obtain ⟨hfields, -, -⟩ := unpackFront_in_range .standard "S 18446744073709551614x B"
    (ofFields "S 18446744073709551614x B"
      [⟨.dynamic, 1⟩, ⟨.pad, 18446744073709551614⟩, ⟨.uint8, 1⟩]) rfl #[1, 7] (by decide)
  obtain ⟨-, hsafe, hbeyond⟩ := hfields
    [⟨.dynamic, 1, 0⟩, ⟨.pad, 18446744073709551614, 0⟩] ⟨.uint8, 1, 18446744073709551614⟩ []
    ⟨#[.bytes [7]], 2⟩ rfl rfl
  exact ⟨hsafe, hbeyond (by decide)⟩

end Layout

end PackedRecord
