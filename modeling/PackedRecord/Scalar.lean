import PackedRecord.Value

/-!
# Typed scalars

Structured data outside a record is typed more finely than values are: integers have a width,
floating-point numbers may be binary32, and characters and texts are told from byte strings.  A
scalar becomes a value by widening: integers to 64 bits of the same signedness, numbers to
binary64, characters and texts to their UTF-8 bytes.  Only the 128-bit integers have no value.
-/

namespace PackedRecord

/-- An integer type. -/
structure IntType where
  signed : Bool
  bits : Nat
  deriving DecidableEq, Repr

namespace IntType

/-- The name of the type: `i8`, `u64`. -/
def name (t : IntType) : String :=
  (if t.signed then "i" else "u") ++ toString t.bits

def min (t : IntType) : Int := if t.signed then -(Nat.pow 2 (t.bits - 1)) else 0

def max (t : IntType) : Int :=
  if t.signed then Nat.pow 2 (t.bits - 1) - 1 else Nat.pow 2 t.bits - 1

/-- Whether an integer is one of the type. -/
def holds (t : IntType) (x : Int) : Bool := decide (t.min ≤ x ∧ x ≤ t.max)

/-- Bytes. -/
def byte : IntType := ⟨false, 8⟩

end IntType

inductive Scalar
  | bool (b : Bool)
  | int (type : IntType) (x : Int)
  | float32 (x : Binary32)
  | float64 (x : Binary64)
  | char (c : Char)
  | text (s : String)
  | bytes (bs : List UInt8)
  deriving DecidableEq

/-- The value of an integer of a type, unless the type is wider than values are. -/
def IntType.value? (t : IntType) (x : Int) : Option Value :=
  if 64 < t.bits then none
  else if t.signed then some (.int (Int64.ofInt x))
  else some (.uint (UInt64.ofNat x.toNat))

/-- The value of a scalar.  The fault is an integer type that is wider than values are. -/
def Scalar.toValue : Scalar → Except IntType Value
  | bool b => .ok (.bool b)
  | int type x =>
    match type.value? x with
    | some v => .ok v
    | none => .error type
  | float32 x => .ok (.float (.widen x))
  | float64 x => .ok (.float x)
  | char c => .ok (.ofText (String.singleton c))
  | text s => .ok (.ofText s)
  | bytes bs => .ok (.bytes bs)

end PackedRecord
