import PackedRecord.Layout.Compile
import PackedRecord.Packing
import PackedRecord.Unpacking
import PackedRecord.OrderedMap
import PackedRecord.Datum.Flatten
import PackedRecord.Datum.Rebuild

/-!
# Records

A record names the fields of a layout.  It is declared field by field, with pads between them, and
the declaration is written out as a format, so that the order of declaration is the order of the
bytes.  Values can then be given and taken by name.
-/

namespace PackedRecord

/-! ## Declarations -/

inductive FieldType
  | int8
  | uint8
  | int16
  | uint16
  | int32
  | uint32
  | int64
  | uint64
  | float32
  | float64
  | bool
  | char
  | bytes (capacity : Nat)
  | pascal (capacity : Nat)
  | dynamic
  deriving DecidableEq, Repr

/-- The tag of a field, after its capacity where it has one. -/
def FieldType.format : FieldType → String
  | int8 => "b"
  | uint8 => "B"
  | int16 => "h"
  | uint16 => "H"
  | int32 => "i"
  | uint32 => "I"
  | int64 => "q"
  | uint64 => "Q"
  | float32 => "f"
  | float64 => "d"
  | bool => "?"
  | char => "c"
  | bytes capacity => toString capacity ++ "s"
  | pascal capacity => toString capacity ++ "p"
  | dynamic => "S"

/-- One part of a declaration. -/
inductive Part
  | field (name : String) (type : FieldType)
  | pad (size : Nat)
  deriving DecidableEq, Repr

namespace Part

def name? : Part → Option String
  | field name _ => some name
  | pad _ => none

/-- The part in a format; a pad of no bytes is not written. -/
def format : Part → String
  | field _ type => type.format
  | pad size => if size = 0 then "" else toString size ++ "x"

end Part

structure Record where
  name : String
  /-- The names of the fields, in order of declaration. -/
  fieldNames : List String
  layout : Layout
  deriving DecidableEq, Repr

namespace Record

/-- The first name that occurred before. -/
def firstRepeated? (seen : List String) : List String → Option String
  | [] => none
  | name :: names =>
    if seen.contains name then some name else firstRepeated? (name :: seen) names

/-- The record of a declaration, the slots of its layout kept in `room`. -/
def buildWithin (room : Room) (name : String) (parts : List Part) : Except Fault Record :=
  let names := parts.filterMap Part.name?
  match firstRepeated? [] names with
  | some repeated => .error (.duplicateField repeated)
  | none =>
    match Layout.compileWithin room (String.join (parts.map Part.format)) with
    | .error fault => .error (.format fault)
    | .ok layout => .ok ⟨name, names, layout⟩

/-- The record of a declaration. -/
def build (name : String) (parts : List Part) : Except Fault Record :=
  buildWithin .standard name parts

/-! ## Packing and unpacking -/

def pack (r : Record) (values : List Value) : Except Fault (Array UInt8) :=
  (r.layout.pack values).mapError .pack

def unpack (r : Record) (buffer : Array UInt8) : Except Fault (List Value) :=
  (r.layout.unpack buffer).mapError .unpack

/-- The values under the given names. -/
def valuesOf (map : OrderedMap Value) : List String → Except Fault (List Value)
  | [] => .ok []
  | name :: names =>
    match map.get? name with
    | none => .error (.missingField name)
    | some v => (valuesOf map names).map (v :: ·)

/-- Packs the values that a map has under the names of the fields. -/
def packMapWith (r : Record) (policy : Policy) (map : OrderedMap Value) :
    Except Fault (Array UInt8) :=
  match valuesOf map r.fieldNames with
  | .error fault => .error fault
  | .ok values => (r.layout.packWith policy values).mapError .pack

/-- Unpacks into a map from the names of the fields, in order of declaration. -/
def unpackMap (r : Record) (buffer : Array UInt8) : Except Fault (OrderedMap Value) :=
  (r.unpack buffer).map fun values => .ofList (r.fieldNames.zip values)

/-- Packs the leaves of a datum. -/
def packDatum (r : Record) (d : Datum) : Except Fault (Array UInt8) :=
  match d.flatten with
  | .error fault => .error fault
  | .ok values => r.pack values

/-- Unpacks into a datum of a shape. -/
def unpackDatum (r : Record) (s : Shape) (buffer : Array UInt8) : Except Fault Datum :=
  match r.unpack buffer with
  | .error fault => .error fault
  | .ok values => s.ofValues values

end Record

end PackedRecord
