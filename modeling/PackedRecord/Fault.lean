import PackedRecord.Field
import PackedRecord.Refusal

/-!
# Faults

Every operation that can fail answers with the cause of its failure.  Compiling a format, packing
and unpacking have causes of their own; `Fault` joins them with the causes that arise around
records and structured data.  A cause holds the data of its message and nothing else, and the
wording is in the `message` functions alone.
-/

namespace PackedRecord

/-- Why a format text has no layout.  Positions are byte offsets in the text. -/
inductive FormatFault
  | unknownTag (tag : Char) (position : Nat)
  | countOverflow (position : Nat)
  | danglingCount (position : Nat)
  | sizeOverflow
  | tooManyFields (count : Nat)
  deriving DecidableEq, Repr

def FormatFault.message : FormatFault → String
  | unknownTag tag position =>
    s!"bad char in format at position {position}: " ++ Text.quoteChar tag
  | countOverflow position => s!"repeat count starting at position {position} is too large"
  | danglingCount position =>
    s!"repeat count at position {position} is not followed by a type tag"
  | sizeOverflow => "total format size overflows the platform size type"
  | tooManyFields count => s!"format expands to {count} fields, more than can be allocated"

/-- Why values cannot be packed. -/
inductive PackFault
  | arityMismatch (expected found : Nat)
  | typeMismatch (tag : Tag) (found : ValueKind)
  | outOfRange (tag : Tag) (value min max : Int)
  | stringTooLong (tag : Tag) (length max : Nat)
  | sizeOverflow
  deriving DecidableEq, Repr

def PackFault.message : PackFault → String
  | arityMismatch expected found => s!"pack requires exactly {expected} values, got {found}"
  | typeMismatch tag found =>
    s!"field '{tag.toChar}' expects {tag.kind.expects}, found {found.name}"
  | outOfRange tag value min max =>
    s!"field '{tag.toChar}' requires {min} <= number <= {max}, got {value}"
  | stringTooLong tag length max =>
    s!"field '{tag.toChar}' holds at most {max} bytes, got {length}"
  | sizeOverflow => "packed size overflows the platform size type"

/-- Why bytes cannot be unpacked. -/
inductive UnpackFault
  | sizeMismatch (expected actual : Nat)
  | truncated (needed available : Nat)
  deriving DecidableEq, Repr

def UnpackFault.message : UnpackFault → String
  | sizeMismatch expected actual => s!"unpack requires a buffer of {expected} bytes, got {actual}"
  | truncated needed available =>
    s!"buffer truncated: needed {needed} bytes, only {available} available"

/-- The types a value can be asked for directly. -/
inductive Target
  | int64
  | uint64
  | float64
  | bool
  | bytes
  deriving DecidableEq, Repr

/-- The cause of a failure anywhere in the library. -/
inductive Fault
  | format (cause : FormatFault)
  | pack (cause : PackFault)
  | unpack (cause : UnpackFault)
  | missingField (name : String)
  | duplicateField (name : String)
  | unsupportedType (what : String)
  | trailingValues (count : Nat)
  /-- A value has no content of the type asked for. -/
  | inconvertible (target : Target) (found : Value)
  /-- No value is an integer of this type. -/
  | unsupportedInteger (type : IntType)
  /-- More data was asked for than there are values. -/
  | outOfValues
  | refused (refusal : Refusal)
  | malformedText (fault : Text.Utf8Fault)
  /-- A sequence takes elements as long as there are values, and its elements take none. -/
  | endlessSequence
  /-- A fault reported in free words. -/
  | custom (text : String)
  deriving DecidableEq

def Fault.message : Fault → String
  | format cause => cause.message
  | pack cause => cause.message
  | unpack cause => cause.message
  | missingField name => "missing value for field '" ++ name ++ "'"
  | duplicateField name => "field '" ++ name ++ "' is declared more than once"
  | unsupportedType what => "unsupported type: " ++ what
  | trailingValues count => s!"{count} values left over after deserialization"
  | inconvertible .int64 found => "cannot convert " ++ found.display ++ " to i64"
  | inconvertible .uint64 found => "cannot convert " ++ found.display ++ " to u64"
  | inconvertible .float64 found => "cannot convert " ++ found.display ++ " to f64"
  | inconvertible .bool found => "expected boolean, found " ++ found.display
  | inconvertible .bytes found => "expected byte sequence, found " ++ found.display
  | unsupportedInteger type => type.name ++ " is not supported"
  | outOfValues => "ran out of values"
  | refused refusal => refusal.message .plain
  | malformedText fault => "invalid UTF-8 in string field: " ++ fault.message
  | endlessSequence => "sequence of elements that take no values"
  | custom text => text

/-! ## Conversions that fail with a cause -/

namespace Value

def toInt64 (v : Value) : Except Fault Int64 :=
  (v.int64?).elim (.error (.inconvertible .int64 v)) .ok

def toUInt64 (v : Value) : Except Fault UInt64 :=
  (v.uint64?).elim (.error (.inconvertible .uint64 v)) .ok

def toNumber (v : Value) : Except Fault Binary64 :=
  (v.number?).elim (.error (.inconvertible .float64 v)) .ok

def toBool (v : Value) : Except Fault Bool :=
  (v.bool?).elim (.error (.inconvertible .bool v)) .ok

def toBytes (v : Value) : Except Fault (List UInt8) :=
  (v.bytes?).elim (.error (.inconvertible .bytes v)) .ok

end Value

end PackedRecord
