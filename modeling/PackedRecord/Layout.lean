import PackedRecord.Field
import PackedRecord.Size

/-!
# Layouts

A layout is a compiled format: its fields in the order of declaration, each placed at a byte
offset of the static region.  The content of dynamic strings is not part of that region; it is
spliced in when a record is packed and moves all later fields.

For `s`, `p` and `x` the count of a slot is its capacity in bytes.  Every other field is repeated
instead, so that its slots have the count one.
-/

namespace PackedRecord

/-- A field placed at an offset of the static region. -/
structure Slot where
  tag : Tag
  count : Nat
  offset : Nat
  deriving DecidableEq, Repr

/-- Bytes of a slot in the static region. -/
def Slot.size (s : Slot) : Nat := s.tag.width * s.count

structure Layout where
  /-- The text the layout was compiled from. -/
  format : String
  /-- All fields in order, pads included. -/
  slots : List Slot
  /-- Bytes of the static region. -/
  size : Nat
  /-- How many values a record takes. -/
  arity : Nat
  /-- Whether a record has dynamic strings. -/
  dynamic : Bool
  deriving DecidableEq, Repr

/-- The fields that take a value, in order. -/
def Layout.carriers (l : Layout) : List Slot :=
  l.slots.filter fun s => s.tag.hasValue

end PackedRecord
