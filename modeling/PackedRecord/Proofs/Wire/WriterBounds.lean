import Mathlib
import PackedRecord.Proofs.Layout.Tiling
import PackedRecord.Proofs.Wire.Sizing

/-!
# The writer stays in range

The writer checks nothing.  It adds offsets and shifts, and puts bytes behind them, in a region
whose size another pass over the same values has told before.  That this is safe rests on three
things: the fields tile the static region, there are as many values as fields that take one, and
both passes agree on the length of each dynamic string.

The last of them is the invariant.  After any number of fields the writer is moved by exactly what
the first pass has added up to there (`Writer.shift_of_run`); one field keeps this, because what is
written for a dynamic string is what was counted for it (`Writer.shift_put`).  So from the end of a
field to the end of the region there is always as much room as the fields behind it still take, and
`Slot.writesWithin_of_payload` goes through the kinds of fields with nothing but that.  Since the
field is within the region (`Slot.WritesWithin.end_le`) and the region within the buffer, what
`getElem?_overwrite` says of a write holds of it: its bytes are changed, and no others.

This is said of every field that the writer comes to, whether or not a later field has a fault.
-/

namespace PackedRecord

/-! ## Fields before and after -/

/-- The first fields take the first values, and leave the others. -/
lemma assignment_behind (before after : List Slot) (values : List Value) :
    assignment (before ++ after) values = assignment before values ++
      assignment after (values.drop (before.filter fun s => s.tag.hasValue).length) := by
  induction before generalizing values with
  | nil => rfl
  | cons s before ih =>
    rw [List.cons_append]
    cases hs : s.tag.hasValue with
    | false =>
      rw [assignment_pad hs, assignment_pad hs, ih]
      simp [hs]
    | true =>
      cases values with
      | nil => simp [assignment]
      | cons v values =>
        rw [assignment_field hs, assignment_field hs, ih]
        simp [hs]

@[simp] lemma stringBytes_append (fields more : List (Slot × Value)) :
    stringBytes (fields ++ more) = stringBytes fields + stringBytes more := by
  simp [stringBytes]

/-- As long as strings are kept the first pass is done with some of the fields when it goes on with
the others. -/
lemma addDynamicSizes_of_keeps {policy : Policy} {running : ℕ} {fields : List (Slot × Value)}
    (hkeeps : ∀ f ∈ fields, policy.Keeps f) (hle : running + stringBytes fields ≤ maxSize) :
    addDynamicSizes policy running fields = .ok (running + stringBytes fields) :=
  (addDynamicSizes_eq_ok_iff (by omega)).mpr ⟨hkeeps, rfl, hle⟩

/-! ## The shift of the writer -/

namespace Writer

variable {policy : Policy} {w w' : Writer} {s : Slot} {v : Value} {bytes : List UInt8}
  {fields : List (Slot × Value)}

/-- **What is written for a field moves the writer by what was counted for it.** -/
theorem shift_put (w : Writer) (h : s.payload policy v = .ok bytes) :
    (w.put s bytes).shift = w.shift + s.stringSize v := by
  by_cases hs : s.tag = .dynamic
  · obtain ⟨bs, n, hbs, hn, rfl⟩ := Slot.payload_of_dynamic hs h
    have hv : v = .bytes bs := by
      have hbytes := Slot.bytes?_of_bytesOf hbs
      cases v with
      | bytes bs' => rw [Option.some.inj hbytes]
      | int | uint | float | bool => cases hbytes
    rw [put, if_pos hs, Slot.length_prefixed (Slot.dynamicLength_le hn), hv,
      Slot.stringSize_of_dynamic hs, Slot.dynamicLength_eq_ok hn]
  · rw [put, if_neg hs, Slot.stringSize_of_not_dynamic hs, Nat.add_zero]

/-- After fields without a fault the writer is moved by what the first pass counts for them; the
region stays where it is. -/
theorem shift_of_run (h : w.run policy fields = (w', none)) :
    w'.shift = w.shift + stringBytes fields ∧ w'.start = w.start := by
  induction fields generalizing w with
  | nil =>
    obtain rfl := (Prod.mk.inj h).1
    exact ⟨rfl, rfl⟩
  | cons f fields ih =>
    obtain ⟨s, v⟩ := f
    rw [run] at h
    split at h
    · cases (Prod.mk.inj h).2
    · next bytes hbytes =>
      obtain ⟨hshift, hstart⟩ := ih h
      rw [shift_put w hbytes, Nat.add_assoc, ← stringBytes_cons] at hshift
      exact ⟨hshift, hstart⟩

/-- The writer goes on from where it has come to. -/
lemma run_append_of_run (h : w.run policy fields = (w', none)) (more : List (Slot × Value)) :
    w.run policy (fields ++ more) = w'.run policy more := by
  induction fields generalizing w with
  | nil =>
    obtain rfl := (Prod.mk.inj h).1
    rfl
  | cons f fields ih =>
    obtain ⟨s, v⟩ := f
    rw [List.cons_append, run]
    rw [run] at h
    split at h
    · cases (Prod.mk.inj h).2
    · exact ih h

end Writer

/-! ## What is written, and where -/

/-- How a field that stands at `position` writes a value: which bytes of the value it takes, what it
puts in front of them, and that all of it lies in a region of `total` bytes. -/
inductive Slot.WritesWithin (policy : Policy) (s : Slot) (v : Value) (position total : ℕ) :
    List UInt8 → Prop
  /-- A number, truth value or character has its width. -/
  | word {bytes : List UInt8} (hfixed : s.tag ≠ .fixedBytes) (hpascal : s.tag ≠ .pascal)
      (hdynamic : s.tag ≠ .dynamic) (hlength : bytes.length = s.tag.width)
      (hend : position + s.tag.width ≤ total) : WritesWithin policy s v position total bytes
  | fixedBytes {bs : List UInt8} {n : ℕ} (hs : s.tag = .fixedBytes) (hbs : s.bytesOf v = .ok bs)
      (hn : n = min bs.length s.count) (hend : position + n ≤ total) :
      WritesWithin policy s v position total (bs.take n)
  /-- Without any capacity not even the length is written. -/
  | noCapacity {bs : List UInt8} (hs : s.tag = .pascal) (hbs : s.bytesOf v = .ok bs)
      (hcount : s.count = 0) : WritesWithin policy s v position total []
  | pascal {bs : List UInt8} {n : ℕ} (hs : s.tag = .pascal) (hbs : s.bytesOf v = .ok bs)
      (hn : n ≤ bs.length) (hcount : n + 1 ≤ s.count) (hbyte : n ≤ 255)
      (hend : position + 1 + n ≤ total) :
      WritesWithin policy s v position total (prefixed n bs)
  | dynamic {bs : List UInt8} {n : ℕ} (hs : s.tag = .dynamic) (hbs : s.bytesOf v = .ok bs)
      (hlength : s.dynamicLength policy bs = .ok n) (hn : n ≤ bs.length) (hbyte : n ≤ 255)
      (hend : position + 1 + n ≤ total) :
      WritesWithin policy s v position total (prefixed n bs)

namespace Slot

variable {policy : Policy} {s : Slot} {v : Value} {bytes : List UInt8} {position total : ℕ}

/-- The static bytes of a number, truth value or character, and those that are written for it. -/
lemma length_of_word (hproper : s.field.Proper) (hvalue : s.tag.hasValue = true)
    (hfixed : s.tag ≠ .fixedBytes) (hpascal : s.tag ≠ .pascal) (hdynamic : s.tag ≠ .dynamic)
    (h : s.payload policy v = .ok bytes) : s.size = s.tag.width ∧ bytes.length = s.tag.width := by
  obtain ⟨tag, count, offset⟩ := s
  cases tag with
  | pad => cases hvalue
  | fixedBytes => exact absurd rfl hfixed
  | pascal => exact absurd rfl hpascal
  | dynamic => exact absurd rfl hdynamic
  | bool =>
    obtain rfl := Except.ok.inj h
    exact ⟨size_of_proper hproper, rfl⟩
  | char =>
    simp only [payload, Tag.kind] at h
    split at h
    · obtain rfl := Except.ok.inj h
      exact ⟨size_of_proper hproper, rfl⟩
    · cases h
  | float32 | float64 =>
    obtain ⟨x, -, rfl⟩ := map_eq_ok h
    exact ⟨size_of_proper hproper, Word.length_digits _ _⟩
  | int8 | uint8 | int16 | uint16 | int32 | uint32 | long32 | ulong32 | int64 | uint64 =>
    obtain ⟨x, -, rfl⟩ := integerWord_eq_ok h
    exact ⟨size_of_proper hproper, Word.length_digits _ _⟩

/-- **A field is written within the region** if its static bytes and what the first pass counts for
it are in the region. -/
theorem writesWithin_of_payload (hproper : s.field.Proper) (hvalue : s.tag.hasValue = true)
    (h : s.payload policy v = .ok bytes) (hend : position + s.size + s.stringSize v ≤ total) :
    s.WritesWithin policy v position total bytes := by
  have hsize := size_of_proper hproper
  by_cases hfixed : s.tag = .fixedBytes
  · simp only [hfixed, Tag.kind] at hsize
    simp only [payload, hfixed, Tag.kind] at h
    obtain ⟨bs, hbs, rfl⟩ := map_eq_ok h
    have htake : bs.take s.count = bs.take (min bs.length s.count) := by
      rw [min_comm, ← List.take_take, List.take_length]
    rw [htake]
    exact .fixedBytes hfixed hbs rfl (by omega)
  by_cases hpascal : s.tag = .pascal
  · simp only [hpascal, Tag.kind] at hsize
    simp only [payload, hpascal, Tag.kind] at h
    obtain ⟨bs, hbs, rfl⟩ := map_eq_ok h
    by_cases hcount : s.count = 0
    · rw [if_pos hcount]
      exact .noCapacity hpascal hbs hcount
    · rw [if_neg hcount]
      have hmax : maxStringLength = 255 := rfl
      exact .pascal hpascal hbs (by omega) (by omega) (by omega) (by omega)
  by_cases hdynamic : s.tag = .dynamic
  · -- The first pass has counted this string, with its length byte, and no static byte for it.
    have hcounted := Writer.shift_put ⟨#[], 0, 0⟩ h
    obtain ⟨bs, n, hbs, hn, rfl⟩ := payload_of_dynamic hdynamic h
    have hle := dynamicLength_le hn
    have hbyte : n ≤ 255 := (dynamicLength_eq_ok hn).trans_le (min_le_right _ _)
    simp only [Writer.put, if_pos hdynamic, length_prefixed hle, Nat.zero_add] at hcounted
    exact .dynamic hdynamic hbs hn hle hbyte (by omega)
  · obtain ⟨hwidth, hlength⟩ := length_of_word hproper hvalue hfixed hpascal hdynamic h
    exact .word hfixed hpascal hdynamic hlength (by omega)

/-- All that is written for a field is in the region, if the field begins in it. -/
lemma WritesWithin.end_le (h : s.WritesWithin policy v position total bytes)
    (hposition : position ≤ total) : position + bytes.length ≤ total := by
  cases h with
  | word _ _ _ hlength hend => rwa [hlength]
  | fixedBytes _ _ hn hend => rwa [List.length_take, hn, min_eq_left (min_le_left _ _), ← hn]
  | noCapacity => exact hposition
  | pascal _ _ hn _ _ hend | dynamic _ _ _ hn _ hend =>
    rw [length_prefixed hn]
    omega

end Slot

/-! ## Safe places -/

/-- What the writer does without a check with the bytes of a field that it has come to, in a region
of `total` bytes and with a layout of `size` static bytes, stays in range. -/
structure Writer.SafeAt (policy : Policy) (size total : ℕ) (w : Writer) (s : Slot) (v : Value)
    (bytes : List UInt8) : Prop where
  /-- The field is written within the region, where the shift has moved it. -/
  writes : s.WritesWithin policy v (s.offset + w.shift) total bytes
  /-- From there on the buffer has the bytes of the field, and elsewhere what it had before. -/
  changes : ∀ i, (w.put s bytes).buffer[i]? =
    if w.start + (s.offset + w.shift) ≤ i ∧ i < w.start + (s.offset + w.shift) + bytes.length then
      bytes[i - (w.start + (s.offset + w.shift))]?
    else w.buffer[i]?
  /-- A dynamic string moves the fields after it by its bytes, and no other field moves any. -/
  movement : (w.put s bytes).shift ≤ maxSize ∧
    if s.tag = .dynamic then
      ∃ bs n, s.bytesOf v = .ok bs ∧ s.dynamicLength policy bs = .ok n ∧
        (w.put s bytes).shift = w.shift + (n + 1)
    else (w.put s bytes).shift = w.shift
  /-- The first pass has added the same bytes for this field to the same size. -/
  counted : addDynamicSizes policy (size + w.shift) [(s, v)] = .ok (size + (w.put s bytes).shift)

namespace Writer

/-- The writer of a record of `total` bytes behind those of `front`. -/
def behind (front : Array UInt8) (total : ℕ) : Writer :=
  ⟨front ++ Array.replicate total 0, front.size, 0⟩

/-- **The writer is safe at a field** if it is moved by the strings before it, as many as the first
pass has counted, and the bytes of the field are within the total, and that within the buffer. -/
theorem safeAt {policy : Policy} {l : Layout} {total : ℕ} {w : Writer} {s : Slot} {v : Value}
    {bytes : List UInt8} (hl : l.WellFormed) (hs : s ∈ l.slots) (hvalue : s.tag.hasValue = true)
    (hkeeps : policy.Keeps (s, v)) (hroom : l.size + w.shift + s.stringSize v ≤ total)
    (htotal : total ≤ maxSize) (hbuffer : w.start + total ≤ w.buffer.size)
    (h : s.payload policy v = .ok bytes) : w.SafeAt policy l.size total s v bytes := by
  have hend := hl.end_le_size hs
  have hwrites : s.WritesWithin policy v (s.offset + w.shift) total bytes :=
    Slot.writesWithin_of_payload (hl.proper s hs) hvalue h (by omega)
  refine { writes := hwrites, changes := ?changes, movement := ?movement, counted := ?counted }
  case changes =>
    have hle := hwrites.end_le (by omega)
    exact getElem?_overwrite (by omega)
  case movement =>
    have hshift := shift_put w h
    refine ⟨by omega, ?_⟩
    split
    · next hdynamic =>
      obtain ⟨bs, n, hbs, hn, rfl⟩ := Slot.payload_of_dynamic hdynamic h
      refine ⟨bs, n, hbs, hn, ?_⟩
      rw [put, if_pos hdynamic, Slot.length_prefixed (Slot.dynamicLength_le hn)]
    · next hdynamic =>
      rw [hshift, Slot.stringSize_of_not_dynamic hdynamic, Nat.add_zero]
  case counted =>
    have hsize : stringBytes [(s, v)] = s.stringSize v := by simp
    rw [addDynamicSizes_of_keeps (by simpa using hkeeps) (by omega), hsize, shift_put w h,
      Nat.add_assoc]

end Writer

namespace Layout

/-- **Writing stays in range.**  If the first pass has told a total, the writer is given a region of
so many zeros, and there are as many values as fields that take one.  Whatever field it comes to,
the field is moved to a size, the first pass has added up to the same shift, there is a value for
the field unless it is a pad, and the writer is safe with the bytes of that value: it puts them into
the region, where the field is moved to, and changes nothing else.  Behind the last field the shift
and the static region make the total. -/
theorem packInto_in_range (room : Room) (format : String) (l : Layout)
    (hl : compileWithin room format = .ok l) (policy : Policy) (values : List Value) (total : ℕ)
    (htotal : l.packedSizeWith policy values = .ok total) (front : Array UInt8) :
    total ≤ maxSize ∧ values.length = l.carriers.length ∧
      (∀ before s after w, l.slots = before ++ s :: after →
        (Writer.behind front total).run policy (assignment before values) = (w, none) →
        let left := values.drop (before.filter fun s => s.tag.hasValue).length
        w.start = front.size ∧ w.buffer.size = front.size + total ∧
          s.offset + w.shift ≤ maxSize ∧
          addDynamicSizes policy l.size (assignment before values) = .ok (l.size + w.shift) ∧
          (Writer.behind front total).run policy (l.assign values) =
            w.run policy (assignment (s :: after) left) ∧
          (s.tag.hasValue = true → ∃ v rest, left = v :: rest ∧
            ∀ bytes, s.payload policy v = .ok bytes → w.SafeAt policy l.size total s v bytes)) ∧
      ∀ w, (Writer.behind front total).run policy (l.assign values) = (w, none) →
        l.size + w.shift = total := by
  have hwf := wellFormed_of_compile hl
  obtain ⟨harity, hkeeps, hsum, hle⟩ := (packedSizeWith_eq_ok_iff hwf).mp htotal
  rw [hwf.arity_eq] at harity
  refine ⟨hle, harity, ?_, ?_⟩
  · intro before s after w hsplit hbefore left
    have hs : s ∈ l.slots := by simp [hsplit]
    have hend := hwf.end_le_size hs
    obtain ⟨hshift, hstart⟩ := Writer.shift_of_run hbefore
    have hmoved : w.shift = stringBytes (assignment before values) :=
      hshift.trans (Nat.zero_add _)
    have hbuffer := Writer.size_run policy (Writer.behind front total) (assignment before values)
    rw [hbefore] at hbuffer
    have hbuffer : w.buffer.size = front.size + total := by simpa [Writer.behind] using hbuffer
    -- The strings of a record are those before the field and those from it on.
    have hassign : l.assign values = assignment before values ++ assignment (s :: after) left := by
      rw [assign_eq, hsplit, assignment_behind]
    rw [hassign, stringBytes_append, ← hmoved] at hsum
    rw [hassign] at hkeeps
    obtain ⟨hkeepsBefore, hkeepsAfter⟩ := List.forall_mem_append.mp hkeeps
    refine ⟨hstart, hbuffer, by omega, ?_, ?_, ?_⟩
    · rw [addDynamicSizes_of_keeps hkeepsBefore (by omega), hmoved]
    · rw [hassign, Writer.run_append_of_run hbefore]
    · intro hvalue
      have htaker : 0 < ((s :: after).filter fun s => s.tag.hasValue).length := by simp [hvalue]
      rw [carriers, hsplit, List.filter_append, List.length_append] at harity
      have hleft : 0 < left.length := by
        rw [List.length_drop]
        omega
      obtain ⟨v, rest, hleft⟩ := List.exists_cons_of_length_pos hleft
      rw [hleft, assignment_field hvalue] at hsum hkeepsAfter
      rw [stringBytes_cons] at hsum
      refine ⟨v, rest, hleft, ?_⟩
      intro bytes hbytes
      have hregion : w.start + total ≤ w.buffer.size := by rw [hstart, hbuffer, Writer.behind]
      exact Writer.safeAt hwf hs hvalue (hkeepsAfter _ List.mem_cons_self) (by omega) hle hregion
        hbytes
  · intro w hall
    obtain ⟨hshift, -⟩ := Writer.shift_of_run hall
    rw [hsum, hshift]
    exact congrArg (l.size + ·) (Nat.zero_add _)

/-- A string of two bytes has moved the writer when it comes to a `p` string, of which two bytes of
four are written; and the string is what the whole record has besides its static region. -/
theorem packInto_in_range_moved :
    (Writer.mk #[5, 2, 7, 8, 0x70, 0x11, 0, 0, 0, 0] 1 3).SafeAt .standard 6 9 ⟨.pascal, 3, 2⟩
        (.bytes [1, 2, 3, 4]) [2, 1, 2] ∧
      ∀ w, (Writer.behind #[5] 9).run .standard
          ((ofFields "S h 3p B" [⟨.dynamic, 1⟩, ⟨.int16, 1⟩, ⟨.pascal, 3⟩, ⟨.uint8, 1⟩]).assign
            [.bytes [7, 8], .int 70000, .bytes [1, 2, 3, 4], .uint 9]) = (w, none) →
        6 + w.shift = 9 := by
  obtain ⟨-, -, hfields, hall⟩ := packInto_in_range .standard "S h 3p B"
    (ofFields "S h 3p B" [⟨.dynamic, 1⟩, ⟨.int16, 1⟩, ⟨.pascal, 3⟩, ⟨.uint8, 1⟩]) rfl .standard
    [.bytes [7, 8], .int 70000, .bytes [1, 2, 3, 4], .uint 9] 9 rfl #[5]
  obtain ⟨-, -, -, -, -, hsafe⟩ := hfields [⟨.dynamic, 1, 0⟩, ⟨.int16, 1, 0⟩] ⟨.pascal, 3, 2⟩
    [⟨.uint8, 1, 5⟩] ⟨#[5, 2, 7, 8, 0x70, 0x11, 0, 0, 0, 0], 1, 3⟩ rfl rfl
  obtain ⟨v, rest, hleft, hsafe⟩ := hsafe rfl
  obtain ⟨rfl, -⟩ := List.cons.inj hleft
  exact ⟨hsafe [2, 1, 2] rfl, hall⟩

end Layout

end PackedRecord
