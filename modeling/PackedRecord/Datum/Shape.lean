import PackedRecord.Datum
import PackedRecord.Fault

/-!
# Shapes and leaves

A shape says what datum is to be rebuilt from values.  Its leaves take one value each and accept or
refuse it; what lies above the leaves only groups them.

A value reaches a leaf as an `Offer`.  Most leaves are offered the value as it is.  A boolean leaf
is offered the truth of an integer, so that an integer field can serve as a flag, and a leaf for
characters or texts is offered the text of a byte string.  Offers also come from sources other than
values, such as documents, and have cases that no value has.
-/

namespace PackedRecord

/-! ## Offers -/

inductive Offer
  | bool (b : Bool)
  | signed (i : Int64)
  | unsigned (u : UInt64)
  | wide (type : IntType) (x : Int)
  | float (x : Binary64)
  | text (s : String)
  | bytes (bs : List UInt8)
  | unit
  | sequence (items : List Offer)
  | map

/-- What a refusal says of an offer. -/
def Offer.found : Offer → Found
  | bool b => .bool b
  | signed i => .integer i.toInt
  | unsigned u => .integer u.toNat
  | wide type x => .wideInteger type x
  | float x => .float x
  | text s => .text s
  | bytes _ => .bytes
  | unit => .unit
  | sequence _ => .sequence
  | map => .map

def Value.offer : Value → Offer
  | int i => .signed i
  | uint u => .unsigned u
  | float x => .float x
  | bool b => .bool b
  | bytes bs => .bytes bs

/-- The offer of a scalar: that of its value, if it has one. -/
def Scalar.offer (s : Scalar) : Offer :=
  match s with
  | int type x =>
    match type.value? x with
    | some v => v.offer
    | none => .wide type x
  | text s => .text s
  | char c => .text (String.singleton c)
  | bool b => .bool b
  | float32 x => .float (.widen x)
  | float64 x => .float x
  | bytes bs => .bytes bs

/-! ## Accepting an offer -/

/-- The integer of an offer. -/
def Offer.integer? : Offer → Option Int
  | signed i => some i.toInt
  | unsigned u => some u.toNat
  | _ => none

/-- Takes an offer as an integer of a type. -/
def IntType.accept (t : IntType) (o : Offer) : Except Refusal Int :=
  match o.integer? with
  | none => .error (.invalidType o.found t.name)
  | some x => if t.holds x then .ok x else .error (.invalidValue o.found t.name)

/-- What a value is expected to be, in the words of refusals. -/
def Value.expectation : String := "an integer, float, boolean, string or byte sequence"

/-- Takes an offer as a value.  A sequence is a byte string if all its items are bytes. -/
def Value.accept : Offer → Except Refusal Value
  | .bool b => .ok (.bool b)
  | .signed i => .ok (.int i)
  | .unsigned u => .ok (.uint u)
  | .float x => .ok (.float x)
  | .text s => .ok (.ofText s)
  | .bytes bs => .ok (.bytes bs)
  | .sequence items =>
    (items.mapM IntType.byte.accept).map fun xs =>
      .bytes (xs.map fun x => UInt8.ofNat x.toNat)
  | o => .error (.invalidType o.found expectation)

/-- The leaves of shapes.  Those of texts and byte strings name themselves in refusals. -/
inductive Leaf
  | bool
  | int (type : IntType)
  | float32
  | float64
  | char
  | text (expectation : String)
  | bytes (expectation : String)
  | value
  | ignored
  deriving DecidableEq, Repr

namespace Leaf

/-- Takes an offer as a datum of the leaf. -/
def accept : Leaf → Offer → Except Refusal Datum
  | bool, .bool b => .ok (.scalar (.bool b))
  | bool, o => .error (.invalidType o.found "a boolean")
  | int type, o => (type.accept o).map fun x => .scalar (.int type x)
  | float32, .float x => .ok (.scalar (.float32 x.narrow))
  | float32, o =>
    match o.integer? with
    | some x => .ok (.scalar (.float32 (.ofInt x)))
    | none => .error (.invalidType o.found "f32")
  | float64, .float x => .ok (.scalar (.float64 x))
  | float64, o =>
    match o.integer? with
    | some x => .ok (.scalar (.float64 (.ofInt x)))
    | none => .error (.invalidType o.found "f64")
  | char, .text s =>
    match s.toList with
    | [c] => .ok (.scalar (.char c))
    | _ => .error (.invalidValue (.text s) "a character")
  | char, o => .error (.invalidType o.found "a character")
  | text _, .text s => .ok (.scalar (.text s))
  | text expectation, o => .error (.invalidType o.found expectation)
  | bytes _, .bytes bs => .ok (.scalar (.bytes bs))
  | bytes expectation, o => .error (.invalidType o.found expectation)
  | value, o => (Value.accept o).map .value
  | ignored, _ => .ok .unit

/-- What a value is offered as to a leaf. -/
def offer : Leaf → Value → Except Fault Offer
  | bool, .int i => .ok (.bool (Value.int i).isTruthy)
  | bool, .uint u => .ok (.bool (Value.uint u).isTruthy)
  | char, .bytes bs | text _, .bytes bs =>
    match Text.decode bs with
    | .ok s => .ok (.text s)
    | .error fault => .error (.malformedText fault)
  | _, v => .ok v.offer

/-- Takes a value as a datum of the leaf. -/
def take (l : Leaf) (v : Value) : Except Fault Datum :=
  match l.offer v with
  | .error fault => .error fault
  | .ok o =>
    match l.accept o with
    | .error refusal => .error (.refused refusal)
    | .ok d => .ok d

end Leaf

/-! ## Shapes -/

/-- What is to be rebuilt from values. -/
inductive Shape
  | leaf (l : Leaf)
  | option (s : Shape)
  | unit
  | unitStruct (name : String)
  | wrapper (name : String) (s : Shape)
  /-- As many elements as the values that are left. -/
  | sequence (s : Shape)
  | tuple (items : List Shape)
  | tupleStruct (name : String) (items : List Shape)
  | record (name : String) (fields : List (String × Shape))
  | enumeration (name : String)
  | map

/-- How many elements a group announces before the first; a sequence does not know. -/
def Shape.sizeHint? : Shape → Option Nat
  | tuple items | tupleStruct _ items => some items.length
  | record _ fields => some fields.length
  | _ => none

end PackedRecord
