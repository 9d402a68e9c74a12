import PackedRecord.Float.Text
import PackedRecord.Text.Quoted
import PackedRecord.Text.Utf8

/-!
# Values

A value is what a record field takes when it is packed and gives when it is unpacked: an integer
of either signedness with 64 bits, a binary64 number, a boolean, or a byte string.  Texts are
byte strings in UTF-8.

Two equalities live side by side.  Structural equality (`=`, decidable) compares floating-point
numbers by their bits.  `Value.equal` compares them as numbers, so that a NaN differs from itself
and the two zeros agree; neither equality identifies values of different kinds.
-/

namespace PackedRecord

/-- The five kinds of values. -/
inductive ValueKind
  | int
  | uint
  | float
  | bool
  | bytes
  deriving DecidableEq, Repr

/-- The kind in words, as faults name it. -/
def ValueKind.name : ValueKind → String
  | .int => "a signed integer"
  | .uint => "an unsigned integer"
  | .float => "a float"
  | .bool => "a boolean"
  | .bytes => "a byte sequence"

inductive Value
  | int (i : Int64)
  | uint (u : UInt64)
  | float (x : Binary64)
  | bool (b : Bool)
  | bytes (bs : List UInt8)
  deriving DecidableEq

namespace Value

def kind : Value → ValueKind
  | int _ => .int
  | uint _ => .uint
  | float _ => .float
  | bool _ => .bool
  | bytes _ => .bytes

/-- A text as a value. -/
def ofText (s : String) : Value := bytes (Text.encode s)

/-- Equality of values of one kind, numbers by their value. -/
def equal : Value → Value → Bool
  | int i, int j => decide (i = j)
  | uint u, uint v => decide (u = v)
  | float x, float y => x.equal y
  | bool b, bool c => decide (b = c)
  | bytes bs, bytes cs => decide (bs = cs)
  | _, _ => false

/-- Equality of lists of values, element by element. -/
def equalLists : List Value → List Value → Bool
  | [], [] => true
  | v :: vs, w :: ws => v.equal w && equalLists vs ws
  | _, _ => false

/-! ## Views

Each view gives the content of a value in one type, where the value has it. -/

def isInteger : Value → Bool
  | int _ | uint _ => true
  | _ => false

def isBytes : Value → Bool
  | bytes _ => true
  | _ => false

/-- Zero, `false` and the empty byte string are false, all other values (a NaN among them) true. -/
def isTruthy : Value → Bool
  | int i => decide (i ≠ 0)
  | uint u => decide (u ≠ 0)
  | float x => !x.isZero
  | bool b => b
  | bytes bs => !bs.isEmpty

/-- The integer of a value of either signedness. -/
def integer? : Value → Option Int
  | int i => some i.toInt
  | uint u => some u.toNat
  | _ => none

def int64? : Value → Option Int64
  | int i => some i
  | uint u => if u.toNat < 0x8000000000000000 then some u.toInt64 else none
  | _ => none

def uint64? : Value → Option UInt64
  | int i => if 0 ≤ i.toInt then some i.toUInt64 else none
  | uint u => some u
  | _ => none

/-- The number of a value; integers are rounded to the nearest binary64 number. -/
def number? : Value → Option Binary64
  | float x => some x
  | int i => some (.ofInt i.toInt)
  | uint u => some (.ofInt u.toNat)
  | _ => none

def bool? : Value → Option Bool
  | bool b => some b
  | _ => none

def bytes? : Value → Option (List UInt8)
  | bytes bs => some bs
  | _ => none

/-- The text of a byte string that is UTF-8. -/
def text? : Value → Option String
  | bytes bs => (Text.decode bs).toOption
  | _ => none

/-! ## Display -/

/-- A value on one line: numbers and booleans plainly, byte strings quoted. -/
def display : Value → String
  | int i => toString i.toInt
  | uint u => toString u.toNat
  | float x => x.text .plain
  | bool b => if b then "true" else "false"
  | bytes bs => Text.quoteBytes bs

end Value

end PackedRecord
