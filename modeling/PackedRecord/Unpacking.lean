import PackedRecord.Layout
import PackedRecord.Fault
import PackedRecord.Word

/-!
# Unpacking

A record is read field by field in the order of declaration, since the length byte of a dynamic
string decides where the later fields are: each stands at its static offset, moved by the dynamic
bytes read before it.  Pads and the unused capacity of strings are never looked at, but they belong
to the record, so that its end is checked once more after the last field.

A buffer that ends too early is reported with the number of bytes that the reading at hand would
have needed.
-/

namespace PackedRecord

/-! ## Reading one field -/

/-- A buffer of `available` bytes would have to hold `needed` bytes. -/
def truncated (buffer : Array UInt8) (needed : Nat) : UnpackFault :=
  .truncated needed buffer.size

/-- The `n` bytes that stand from `position` on. -/
def slice (buffer : Array UInt8) (position n : Nat) : Except UnpackFault (List UInt8) :=
  if position + n ≤ buffer.size then .ok (buffer.extract position (position + n)).toList
  else .error (truncated buffer (min (position + n) maxSize))

/-- The number in the byte at `position`. -/
def byteAt (buffer : Array UInt8) (position : Nat) : Except UnpackFault Nat :=
  (slice buffer position 1).map Word.ofDigits

/-- The number in the word of `width` bytes at `position`. -/
def wordAt (buffer : Array UInt8) (position width : Nat) : Except UnpackFault UInt64 :=
  (slice buffer position width).map Word.toUInt64

/-- A length byte at `position`, and as many bytes after it, though no more than `limit`. -/
def prefixedAt (buffer : Array UInt8) (position limit : Nat) :
    Except UnpackFault (List UInt8) :=
  match byteAt buffer position with
  | .error fault => .error fault
  | .ok n => slice buffer (position + 1) (min n limit)

/-- The value of a field that stands at `position`; a pad has none. -/
def Slot.valueAt (s : Slot) (buffer : Array UInt8) (position : Nat) :
    Except UnpackFault (Option Value) :=
  match s.tag.kind with
  | .signedInt =>
    (wordAt buffer position s.tag.width).map fun w =>
      some (.int (Word.signExtend w s.tag.width))
  | .unsignedInt => (wordAt buffer position s.tag.width).map fun w => some (.uint w)
  | .float32 =>
    (wordAt buffer position 4).map fun w => some (.float (Binary64.widen ⟨w.toUInt32⟩))
  | .float64 => (wordAt buffer position 8).map fun w => some (.float ⟨w⟩)
  | .bool => (byteAt buffer position).map fun b => some (.bool (decide (b ≠ 0)))
  | .char => (slice buffer position 1).map fun bs => some (.bytes bs)
  | .fixedBytes => (slice buffer position s.count).map fun bs => some (.bytes bs)
  | .pascalString =>
    if s.count = 0 then .ok (some (.bytes []))
    else (prefixedAt buffer position (s.count - 1)).map fun bs => some (.bytes bs)
  | .dynamicString =>
    (prefixedAt buffer position maxSize).map fun bs => some (.bytes bs)
  | .pad => .ok none

/-! ## Reading a record -/

/-- The values read so far, and the dynamic bytes among what was read. -/
structure Reader where
  values : Array Value
  shift : Nat

/-- How far a value moves the fields after it: a dynamic string by its content and length byte. -/
def Slot.movement (s : Slot) (v : Value) : Nat :=
  match s.tag, v with
  | .dynamic, .bytes bs => bs.length + 1
  | _, _ => 0

namespace Reader

def start : Reader := ⟨#[], 0⟩

/-- Reads one field. -/
def step (buffer : Array UInt8) (r : Reader) (s : Slot) : Except UnpackFault Reader :=
  match addSize? s.offset r.shift with
  | none => .error (truncated buffer maxSize)
  | some position =>
    match s.valueAt buffer position with
    | .error fault => .error fault
    | .ok none => .ok r
    | .ok (some v) => .ok ⟨r.values.push v, r.shift + s.movement v⟩

/-- Reads fields until the end or the first fault. -/
def run (buffer : Array UInt8) (r : Reader) : List Slot → Except UnpackFault Reader
  | [] => .ok r
  | s :: rest =>
    match r.step buffer s with
    | .error fault => .error fault
    | .ok r => r.run buffer rest

end Reader

namespace Layout

/-- Reads the record at the start of a buffer: its values, and the number of its bytes. -/
def unpackFront (l : Layout) (buffer : Array UInt8) : Except UnpackFault (List Value × Nat) :=
  match Reader.start.run buffer l.slots with
  | .error fault => .error fault
  | .ok r =>
    match addSize? l.size r.shift with
    | none => .error (truncated buffer maxSize)
    | some consumed =>
      if buffer.size < consumed then .error (truncated buffer consumed)
      else .ok (r.values.toList, consumed)

/-- Reads a buffer that holds one record and nothing else. -/
def unpack (l : Layout) (buffer : Array UInt8) : Except UnpackFault (List Value) :=
  if l.dynamic = false ∧ buffer.size ≠ l.size then .error (.sizeMismatch l.size buffer.size)
  else
    match l.unpackFront buffer with
    | .error fault => .error fault
    | .ok (values, consumed) =>
      if consumed ≠ buffer.size then .error (.sizeMismatch consumed buffer.size)
      else .ok values

end Layout

end PackedRecord
