import Mathlib
import PackedRecord.Proofs.Format.Acceptance
import PackedRecord.Proofs.Wire.Decoding

/-!
# Reading with a cursor

A record can be read with a single number in hand, the *cursor*.  It starts at zero, every field
begins exactly where the field before it has ended, and nothing bounds it but the end of the bytes
(`readFrom`).  A field takes as many bytes as its tag and count say, or in a dynamic string as the
byte at the cursor says (`Slot.lengthAt`), and these bytes have a meaning that is a matter of plain
arithmetic (`Slot.meaning?`): little-endian numbers, balanced residues for the signed ones, IEEE
bits, and byte strings behind their length byte.

The engine has no cursor.  It adds a running shift to offsets that were fixed by the compiler, reads
less of a `p` string than the string occupies, passes over pads, and looks at the end of the record
only after the last field.  That it computes the same, on buffers of any content and length, is
`Layout.unpackFront_iff_readFrom`.  Both sides are compared with the pieces of a record: the cursor
finds pieces because what stands between two of its positions fills the field
(`Slot.fills_of_lengthAt`), and it takes every piece that is there (`Slot.lengthAt_of_fills`).
-/

namespace PackedRecord

/-! ## Plain meaning -/

/-- The number that bytes stand for, the least significant first. -/
def littleEndian (bs : List UInt8) : ℕ := Nat.ofDigits 256 (bs.map UInt8.toNat)

/-- The engine adds up the digits of a word to that number. -/
lemma Word.ofDigits_eq (bs : List UInt8) : Word.ofDigits bs = littleEndian bs := by
  induction bs with
  | nil => rfl
  | cons b bs ih =>
    rw [Word.ofDigits, ih]
    simp [littleEndian, Nat.ofDigits_cons]

namespace Slot

/-- How many bytes a field takes that begins at `cursor`.  A dynamic string has no length where the
bytes have ended before its length byte. -/
def lengthAt (s : Slot) (bytes : List UInt8) (cursor : ℕ) : Option ℕ :=
  match s.tag.kind with
  | .signedInt | .unsignedInt | .float32 | .float64 | .bool | .char => some s.tag.width
  | .fixedBytes | .pascalString | .pad => some s.count
  | .dynamicString => bytes[cursor]?.map fun m => 1 + m.toNat

/-- What the bytes of a field mean; a pad means nothing. -/
def meaning? (s : Slot) (piece : List UInt8) : Option Value :=
  match s.tag.kind with
  | .signedInt =>
    some (.int (Int64.ofInt (Int.bmod (littleEndian piece) (2 ^ (8 * s.tag.width)))))
  | .unsignedInt => some (.uint (UInt64.ofNat (littleEndian piece)))
  | .float32 => some (.float (Binary64.widen ⟨UInt32.ofNat (littleEndian piece)⟩))
  | .float64 => some (.float ⟨UInt64.ofNat (littleEndian piece)⟩)
  | .bool => some (.bool (decide (piece ≠ [0])))
  | .char | .fixedBytes => some (.bytes piece)
  | .pascalString =>
    some (.bytes (piece.tail.take (min (piece.headD 0).toNat (s.count - 1))))
  | .dynamicString => some (.bytes piece.tail)
  | .pad => none

/-- The engine gives the bytes of a field their meaning. -/
theorem meaning?_eq_decode? {s : Slot} (hs : s.field.Proper) {piece : List UInt8}
    (hfills : s.Fills piece) : s.meaning? piece = s.decode? piece := by
  have hpiece := (fills_iff hs).mp hfills
  have hle := s.tag.width_le
  unfold meaning? decode?
  cases hk : s.tag.kind with
  | signedInt =>
    simp only [hk] at hpiece
    have hread : (Word.signExtend (Word.toUInt64 piece) s.tag.width).toInt =
        Int.bmod (littleEndian piece) (2 ^ (8 * s.tag.width)) := by
      rw [Word.toInt_signExtend (Tag.width_pos (Or.inl hk)) hle, Word.toNat_toUInt64 (by omega),
        Word.ofDigits_eq]
    simp only [← hread, Int64.ofInt_toInt]
  | unsignedInt => simp only [Word.toUInt64, Word.ofDigits_eq]
  | float32 => simp only [Word.toUInt64, Word.ofDigits_eq, UInt64.toUInt32_ofNat']
  | float64 => simp only [Word.toUInt64, Word.ofDigits_eq]
  | bool =>
    simp only [hk] at hpiece
    obtain ⟨b, rfl⟩ := List.length_eq_one_iff.mp hpiece
    have hzero : b = 0 ↔ b.toNat = 0 := by rw [← UInt8.toNat_inj]; rfl
    simp [Word.ofDigits, hzero]
  | pascalString =>
    cases piece with
    | nil => simp
    | cons m content => simp
  | char | fixedBytes | dynamicString | pad => rfl

/-! ## What stands between two positions of the cursor -/

lemma lengthAt_of_not_dynamic {s : Slot} (hs : s.field.Proper) (hne : s.tag ≠ .dynamic)
    (bytes : List UInt8) (cursor : ℕ) : s.lengthAt bytes cursor = some s.size := by
  obtain ⟨t, count, offset⟩ := s
  cases t <;> simp_all [lengthAt, size, field, Field.Proper, Tag.kind, Tag.width]

lemma lengthAt_of_dynamic {s : Slot} (hs : s.tag = .dynamic) (bytes : List UInt8) (cursor : ℕ) :
    s.lengthAt bytes cursor = bytes[cursor]?.map fun m => 1 + m.toNat := by
  simp only [lengthAt, Tag.eq_dynamic_iff.mp hs]

/-- A field takes the whole of its piece. -/
lemma lengthAt_of_fills {s : Slot} (hs : s.field.Proper) {piece : List UInt8}
    (hfills : s.Fills piece) (front back : List UInt8) :
    s.lengthAt (front ++ (piece ++ back)) front.length = some piece.length := by
  by_cases hdynamic : s.tag = .dynamic
  · obtain ⟨m, content, rfl, hm⟩ := (fills_of_dynamic hdynamic).mp hfills
    simp [lengthAt_of_dynamic hdynamic, hm, Nat.add_comm]
  · rw [lengthAt_of_not_dynamic hs hdynamic, length_of_fills hfills hdynamic]

/-- As many bytes as a field takes are a piece of it, if they are there. -/
lemma fills_of_lengthAt {s : Slot} (hs : s.field.Proper) {front back : List UInt8} {n : ℕ}
    (h : s.lengthAt (front ++ back) front.length = some n) (hn : n ≤ back.length) :
    s.Fills (back.take n) := by
  by_cases hdynamic : s.tag = .dynamic
  · rw [lengthAt_of_dynamic hdynamic, List.getElem?_append_right le_rfl, Nat.sub_self,
      Option.map_eq_some_iff] at h
    obtain ⟨m, hm, rfl⟩ := h
    obtain ⟨content, rfl⟩ : ∃ content, back = m :: content := by
      cases back with
      | nil => cases hm
      | cons b content =>
        obtain rfl := Option.some.inj hm
        exact ⟨content, rfl⟩
    rw [List.length_cons] at hn
    refine (fills_of_dynamic hdynamic).mpr ⟨m, content.take m.toNat, ?_, ?_⟩
    · rw [Nat.add_comm, List.take_succ_cons]
    · rw [List.length_take]
      omega
  · rw [lengthAt_of_not_dynamic hs hdynamic] at h
    obtain rfl := Option.some.inj h
    rw [fills_of_not_dynamic hdynamic, List.length_take]
    omega

end Slot

/-! ## The cursor -/

/-- Reads fields one after the other from `cursor` on, and answers with their values and the place
where the cursor ends up.  There is no answer if a field runs past the end of the bytes. -/
def readFrom (bytes : List UInt8) (cursor : ℕ) : List Slot → Option (List Value × ℕ)
  | [] => some ([], cursor)
  | s :: slots =>
    match s.lengthAt bytes cursor with
    | none => none
    | some n =>
      if cursor + n ≤ bytes.length then
        (readFrom bytes (cursor + n) slots).map fun r =>
          ((s.meaning? ((bytes.drop cursor).take n)).toList ++ r.1, r.2)
      else none

/-- Pieces are read one after the other. -/
lemma readFrom_of_fills {slots : List Slot} {pieces : List (List UInt8)}
    (hfills : List.Forall₂ Slot.Fills slots pieces) (hproper : ∀ s ∈ slots, s.field.Proper)
    (front back : List UInt8) :
    readFrom (front ++ (pieces.flatten ++ back)) front.length slots =
      some (decoded slots pieces, front.length + pieces.flatten.length) := by
  induction hfills generalizing front with
  | nil => rfl
  | @cons s piece slots pieces hpiece _ ih =>
    obtain ⟨hs, hproper⟩ := List.forall_mem_cons.mp hproper
    have hsplit : front ++ ((piece :: pieces).flatten ++ back) =
        (front ++ piece) ++ (pieces.flatten ++ back) := by
      simp
    have hlength : s.lengthAt (front ++ ((piece :: pieces).flatten ++ back)) front.length =
        some piece.length := by
      rw [List.flatten_cons, List.append_assoc]
      exact Slot.lengthAt_of_fills hs hpiece front (pieces.flatten ++ back)
    have htake : ((front ++ ((piece :: pieces).flatten ++ back)).drop front.length).take
        piece.length = piece := by
      simp
    have hrest := ih hproper (front ++ piece)
    rw [← hsplit, List.length_append] at hrest
    rw [readFrom, hlength]
    simp only [htake, hrest, Slot.meaning?_eq_decode? hs hpiece]
    rw [if_pos]
    · simp [Nat.add_assoc]
    · simp

/-- What the cursor has passed over are pieces. -/
lemma fills_of_readFrom {slots : List Slot} (hproper : ∀ s ∈ slots, s.field.Proper)
    {front back : List UInt8} {values : List Value} {last : ℕ}
    (h : readFrom (front ++ back) front.length slots = some (values, last)) :
    ∃ pieces rest, back = pieces.flatten ++ rest ∧ List.Forall₂ Slot.Fills slots pieces := by
  induction slots generalizing front back values last with
  | nil => exact ⟨[], back, rfl, .nil⟩
  | cons s slots ih =>
    obtain ⟨hs, hproper⟩ := List.forall_mem_cons.mp hproper
    rw [readFrom] at h
    split at h
    · cases h
    · next n hn =>
      split at h
      · next hle =>
        obtain ⟨⟨found, final⟩, hr, -⟩ := Option.map_eq_some_iff.mp h
        rw [List.length_append] at hle
        have hpiece := Slot.fills_of_lengthAt hs hn (by omega)
        have hsplit : front ++ back = (front ++ back.take n) ++ back.drop n := by simp
        have hnext : front.length + n = (front ++ back.take n).length := by
          rw [List.length_append, List.length_take]
          omega
        rw [hsplit, hnext] at hr
        obtain ⟨pieces, rest, hback, hfills⟩ := ih hproper hr
        refine ⟨back.take n :: pieces, rest, ?_, .cons hpiece hfills⟩
        rw [List.flatten_cons, List.append_assoc, ← hback, List.take_append_drop]
      · cases h

namespace Layout

/-- **The engine reads as a cursor does.**  On a buffer of any content, the record at its front is
read exactly when the cursor visits all fields without running past the end; the bytes that the
record takes are then the final cursor, and its values are what the bytes of each field mean. -/
theorem unpackFront_iff_readFrom (room : Room) (format : String) (l : Layout)
    (hl : compileWithin room format = .ok l) (buffer : Array UInt8)
    (hbuffer : buffer.size ≤ maxSize) (values : List Value) (consumed : ℕ) :
    l.unpackFront buffer = .ok (values, consumed) ↔
      readFrom buffer.toList 0 l.slots = some (values, consumed) := by
  have hwf := wellFormed_of_compile hl
  have hread {pieces : List (List UInt8)} {rest : List UInt8}
      (hsplit : buffer.toList = pieces.flatten ++ rest)
      (hfills : List.Forall₂ Slot.Fills l.slots pieces) :
      readFrom buffer.toList 0 l.slots = some (decoded l.slots pieces, pieces.flatten.length) := by
    have h := readFrom_of_fills hfills hwf.proper [] rest
    rwa [List.nil_append, ← hsplit, List.length_nil, Nat.zero_add] at h
  rw [unpackFront_eq_ok_iff hwf]
  constructor
  · rintro ⟨pieces, rest, hsplit, hfills, rfl, rfl, -⟩
    exact hread hsplit hfills
  · intro h
    have hstart : readFrom ([] ++ buffer.toList) ([] : List UInt8).length l.slots =
        some (values, consumed) := h
    obtain ⟨pieces, rest, hsplit, hfills⟩ := fills_of_readFrom hwf.proper hstart
    rw [hread hsplit hfills] at h
    obtain ⟨rfl, rfl⟩ := Prod.mk.inj (Option.some.inj h)
    have hsize : buffer.size = pieces.flatten.length + rest.length := by
      rw [← Array.length_toList, hsplit, List.length_append]
    exact ⟨pieces, rest, hsplit, hfills, rfl, rfl, by omega⟩

/-- The cursor at work: a dynamic string moves all that follows, the length byte of a `p` string
exceeds its capacity, and one byte behind the record is left over. -/
theorem unpackFront_iff_readFrom_moved :
    readFrom [1, 7, 9, 9, 200, 1, 2, 3, 0xfe, 0xff, 5] 0
        (placed 0 [⟨.dynamic, 1⟩, ⟨.pad, 2⟩, ⟨.pascal, 4⟩, ⟨.int16, 1⟩]) =
      some ([.bytes [7], .bytes [1, 2, 3], .int (-2)], 10) :=
  (unpackFront_iff_readFrom .standard "S 2x 4p h"
    (ofFields "S 2x 4p h" [⟨.dynamic, 1⟩, ⟨.pad, 2⟩, ⟨.pascal, 4⟩, ⟨.int16, 1⟩]) rfl
    #[1, 7, 9, 9, 200, 1, 2, 3, 0xfe, 0xff, 5] (by decide) _ _).mp (by decide +kernel)

end Layout

end PackedRecord
