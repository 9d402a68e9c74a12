/-!
# Field tags

A format names each field by a one-character tag.  A tag fixes the kind of the field and its
width, the number of bytes for each unit of its count: the whole width of a scalar, one byte of
capacity for `s`, `p` and `x`, and none for the dynamic string `S`, whose content is not part of
the static region.
-/

namespace PackedRecord

/-- What a field holds. -/
inductive FieldKind
  | signedInt
  | unsignedInt
  | float32
  | float64
  | bool
  | char
  | fixedBytes
  | pascalString
  | dynamicString
  | pad
  deriving DecidableEq, Repr

/-- What a field of this kind expects of a value, in the words of faults. -/
def FieldKind.expects : FieldKind → String
  | signedInt | unsignedInt => "an integer"
  | float32 | float64 => "a number"
  | bool => "any value"
  | char => "a byte sequence of length 1"
  | fixedBytes | pascalString | dynamicString => "a byte sequence"
  | pad => "no value"

/-- The tags of a format. -/
inductive Tag
  | pad
  | char
  | int8
  | uint8
  | bool
  | int16
  | uint16
  | int32
  | uint32
  | long32
  | ulong32
  | int64
  | uint64
  | float32
  | float64
  | fixedBytes
  | pascal
  | dynamic
  deriving DecidableEq, Repr

namespace Tag

/-- All tags, in the order of the reference table. -/
def all : List Tag :=
  [pad, char, int8, uint8, bool, int16, uint16, int32, uint32, long32, ulong32, int64, uint64,
    float32, float64, fixedBytes, pascal, dynamic]

def toChar : Tag → Char
  | pad => 'x'
  | char => 'c'
  | int8 => 'b'
  | uint8 => 'B'
  | bool => '?'
  | int16 => 'h'
  | uint16 => 'H'
  | int32 => 'i'
  | uint32 => 'I'
  | long32 => 'l'
  | ulong32 => 'L'
  | int64 => 'q'
  | uint64 => 'Q'
  | float32 => 'f'
  | float64 => 'd'
  | fixedBytes => 's'
  | pascal => 'p'
  | dynamic => 'S'

/-- The tag written as a character, if there is one. -/
def ofChar? (c : Char) : Option Tag :=
  all.find? fun t => t.toChar == c

def kind : Tag → FieldKind
  | pad => .pad
  | char => .char
  | int8 | int16 | int32 | long32 | int64 => .signedInt
  | uint8 | uint16 | uint32 | ulong32 | uint64 => .unsignedInt
  | bool => .bool
  | float32 => .float32
  | float64 => .float64
  | fixedBytes => .fixedBytes
  | pascal => .pascalString
  | dynamic => .dynamicString

/-- Bytes for each unit of the count. -/
def width : Tag → Nat
  | pad | char | int8 | uint8 | bool | fixedBytes | pascal => 1
  | int16 | uint16 => 2
  | int32 | uint32 | long32 | ulong32 | float32 => 4
  | int64 | uint64 | float64 => 8
  | dynamic => 0

/-- The alignment of a field; zero means that fields follow each other without gaps. -/
def alignment : Tag → Nat := fun _ => 0

/-- Every field but a pad takes a value. -/
def hasValue (t : Tag) : Bool := t != pad

theorem ofChar?_toChar (t : Tag) : ofChar? t.toChar = some t := by cases t <;> decide

theorem hasValue_iff (t : Tag) : t.hasValue = true ↔ t.kind ≠ .pad := by
  cases t <;> decide

end Tag

end PackedRecord
