import PackedRecord.Layout
import PackedRecord.Fault
import PackedRecord.Policy
import PackedRecord.Word

/-!
# Packing

A record is packed in two passes over its fields.  The first computes its size: the static region
and, for every dynamic string, the string and its length byte.  The second writes the fields into
a region of that many zero bytes, each at its static offset moved by the dynamic bytes written
before it.  Bytes that no field writes (pads, the unused capacity of strings) stay zero.

Since a record goes to the end of a buffer that may hold other records, a fault leaves that buffer
as it was: the region is cut off again.

Writing never moves or lengthens what is there: `getElem?_overwrite` says which byte stands where
after a field was written, and `Writer.size_run` that the buffer keeps its size.
-/

namespace PackedRecord

/-- The longest content that a length byte can describe. -/
def maxStringLength : Nat := 255

/-! ## The bytes of one field -/

/-- The smallest and the largest integer in a word of `width` bytes, signed or not. -/
def FieldKind.range (k : FieldKind) (width : Nat) : Int × Int :=
  match k with
  | .signedInt => (-(Nat.pow 2 (8 * width - 1)), Nat.pow 2 (8 * width - 1) - 1)
  | _ => (0, Nat.pow 2 (8 * width) - 1)

/-- The smallest and the largest integer of an integer field. -/
def Tag.range (t : Tag) : Int × Int := t.kind.range t.width

namespace Slot

def typeMismatch (s : Slot) (v : Value) : PackFault :=
  .typeMismatch s.tag v.kind

/-- The byte string of a value. -/
def bytesOf (s : Slot) (v : Value) : Except PackFault (List UInt8) :=
  match v.bytes? with
  | some bs => .ok bs
  | none => .error (s.typeMismatch v)

/-- The number of a value. -/
def numberOf (s : Slot) (v : Value) : Except PackFault Binary64 :=
  match v.number? with
  | some x => .ok x
  | none => .error (s.typeMismatch v)

/-- How many bytes of a byte string go into a dynamic string. -/
def dynamicLength (s : Slot) (policy : Policy) (bs : List UInt8) : Except PackFault Nat :=
  if bs.length ≤ maxStringLength then .ok bs.length
  else
    match policy.longStrings with
    | .truncate => .ok maxStringLength
    | .reject => .error (.stringTooLong s.tag bs.length maxStringLength)

/-- The word of an integer. -/
def integerWord (s : Slot) (policy : Policy) (v : Value) : Except PackFault (List UInt8) :=
  match v.integer? with
  | none => .error (s.typeMismatch v)
  | some x =>
    if policy.overflow = .strict ∧ (x < s.tag.range.1 ∨ s.tag.range.2 < x) then
      .error (.outOfRange s.tag x s.tag.range.1 s.tag.range.2)
    else .ok (Word.ofInt s.tag.width x)

/-- A string behind its length byte. -/
def prefixed (n : Nat) (bs : List UInt8) : List UInt8 :=
  UInt8.ofNat n :: bs.take n

/-- The bytes that a value writes at the start of its slot. -/
def payload (s : Slot) (policy : Policy) (v : Value) : Except PackFault (List UInt8) :=
  match s.tag.kind with
  | .signedInt | .unsignedInt => s.integerWord policy v
  | .float32 => (s.numberOf v).map fun x => Word.digits 4 (Binary64.narrow x).bits.toNat
  | .float64 => (s.numberOf v).map fun x => Word.digits 8 x.bits.toNat
  | .bool => .ok [if v.isTruthy then 1 else 0]
  | .char =>
    match v.bytes? with
    | some [b] => .ok [b]
    | _ => .error (s.typeMismatch v)
  | .fixedBytes => (s.bytesOf v).map fun bs => bs.take s.count
  | .pascalString => (s.bytesOf v).map fun bs =>
    if s.count = 0 then []
    else prefixed (min (min bs.length (s.count - 1)) maxStringLength) bs
  | .dynamicString =>
    match s.bytesOf v with
    | .error fault => .error fault
    | .ok bs => (s.dynamicLength policy bs).map fun n => prefixed n bs
  | .pad => .ok []

end Slot

/-! ## The size of a record -/

/-- The fields that take a value, each with its value. -/
def Layout.assign (l : Layout) (values : List Value) : List (Slot × Value) :=
  l.carriers.zip values

/-- Adds the dynamic strings of the fields to a size. -/
def addDynamicSizes (policy : Policy) (total : Nat) :
    List (Slot × Value) → Except PackFault Nat
  | [] => .ok total
  | (s, v) :: rest =>
    if s.tag = .dynamic then
      match s.bytesOf v with
      | .error fault => .error fault
      | .ok bs =>
        match s.dynamicLength policy bs with
        | .error fault => .error fault
        | .ok n =>
          match addSize? total (n + 1) with
          | none => .error .sizeOverflow
          | some total => addDynamicSizes policy total rest
    else addDynamicSizes policy total rest

namespace Layout

/-- The size of the packed record. -/
def packedSizeWith (l : Layout) (policy : Policy) (values : List Value) : Except PackFault Nat :=
  if values.length ≠ l.arity then .error (.arityMismatch l.arity values.length)
  else if l.dynamic then addDynamicSizes policy l.size (l.assign values)
  else .ok l.size

/-- The size of the packed record under the standard policy. -/
def packedSize (l : Layout) (values : List Value) : Except PackFault Nat :=
  l.packedSizeWith .standard values

end Layout

/-! ## Writing the fields -/

/-- Writes bytes over those that stand from `position` on. -/
def overwrite (buffer : Array UInt8) (position : Nat) : List UInt8 → Array UInt8
  | [] => buffer
  | b :: bs => overwrite (buffer.setIfInBounds position b) (position + 1) bs

@[simp] theorem size_overwrite (buffer : Array UInt8) (position : Nat) (bs : List UInt8) :
    (overwrite buffer position bs).size = buffer.size := by
  induction bs generalizing buffer position with
  | nil => rfl
  | cons b bs ih => rw [overwrite, ih, Array.size_setIfInBounds]

/-- Inside the written range stand the new bytes, everywhere else the old ones. -/
theorem getElem?_overwrite {buffer : Array UInt8} {position : Nat} {bs : List UInt8}
    (h : position + bs.length ≤ buffer.size) (i : Nat) :
    (overwrite buffer position bs)[i]? =
      if position ≤ i ∧ i < position + bs.length then bs[i - position]? else buffer[i]? := by
  induction bs generalizing buffer position with
  | nil => simp only [overwrite, List.length_nil, Nat.add_zero]; rw [if_neg (by omega)]
  | cons b bs ih =>
    simp only [List.length_cons] at h ⊢
    rw [overwrite, ih (by rw [Array.size_setIfInBounds]; omega)]
    by_cases here : i = position
    · subst here
      rw [if_neg (by omega), if_pos (by omega), Nat.sub_self,
        Array.getElem?_setIfInBounds_self_of_lt (by omega)]
      rfl
    · rw [Array.getElem?_setIfInBounds_ne (Ne.symm here)]
      by_cases inside : position ≤ i ∧ i < position + (bs.length + 1)
      · rw [if_pos (by omega), if_pos inside]
        obtain ⟨k, hk⟩ : ∃ k, i - position = k + 1 := ⟨i - position - 1, by omega⟩
        rw [hk, List.getElem?_cons_succ]
        congr 1
        omega
      · rw [if_neg (by omega), if_neg inside]

/-- A buffer whose last record, from `start` on, is being written.  The fields still to come are
moved by `shift` bytes. -/
structure Writer where
  buffer : Array UInt8
  start : Nat
  shift : Nat

namespace Writer

/-- Writes the bytes of one field. -/
def put (w : Writer) (s : Slot) (bytes : List UInt8) : Writer where
  buffer := overwrite w.buffer (w.start + (s.offset + w.shift)) bytes
  start := w.start
  shift := if s.tag = .dynamic then w.shift + bytes.length else w.shift

@[simp] theorem size_put (w : Writer) (s : Slot) (bytes : List UInt8) :
    (w.put s bytes).buffer.size = w.buffer.size :=
  size_overwrite _ _ _

/-- Writes fields until the end or the first fault. -/
def run (policy : Policy) (w : Writer) : List (Slot × Value) → Writer × Option PackFault
  | [] => (w, none)
  | (s, v) :: rest =>
    match s.payload policy v with
    | .error fault => (w, some fault)
    | .ok bytes => (w.put s bytes).run policy rest

theorem size_run (policy : Policy) (w : Writer) (fields : List (Slot × Value)) :
    (w.run policy fields).1.buffer.size = w.buffer.size := by
  induction fields generalizing w with
  | nil => rfl
  | cons f fields ih =>
    obtain ⟨s, v⟩ := f
    rw [run]
    split
    · rfl
    · rw [ih, size_put]

end Writer

namespace Layout

/-- Packs a record onto the end of a buffer.  The answer is the buffer afterwards, and the number of
bytes written or the fault. -/
def packInto (l : Layout) (policy : Policy) (buffer : Array UInt8) (values : List Value) :
    Array UInt8 × Except PackFault Nat :=
  match l.packedSizeWith policy values with
  | .error fault => (buffer, .error fault)
  | .ok total =>
    let start := buffer.size
    match addSize? start total with
    | none => (buffer, .error .sizeOverflow)
    | some _ =>
      let grown := buffer ++ Array.replicate total 0
      match (Writer.mk grown start 0).run policy (l.assign values) with
      | (w, some fault) => (w.buffer.take start, .error fault)
      | (w, none) => (w.buffer, .ok total)

/-- The bytes of a record. -/
def packWith (l : Layout) (policy : Policy) (values : List Value) :
    Except PackFault (Array UInt8) :=
  match l.packInto policy #[] values with
  | (_, .error fault) => .error fault
  | (bytes, .ok _) => .ok bytes

/-- The bytes of a record under the standard policy. -/
def pack (l : Layout) (values : List Value) : Except PackFault (Array UInt8) :=
  l.packWith .standard values

end Layout

end PackedRecord
