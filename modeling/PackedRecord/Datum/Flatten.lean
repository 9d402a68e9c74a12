import PackedRecord.Datum
import PackedRecord.Fault

/-!
# Flattening

A flat record holds the leaves of a datum from left to right, whatever their grouping, nesting and
naming.  What has no place there ends the flattening with a fault; the leaves before it have been
appended by then and stay.
-/

namespace PackedRecord

/-- The values appended so far, and how the appending ended. -/
abbrev Emission := Array Value × Except Fault Unit

/-- Appends the value of a scalar. -/
def emitScalar (out : Array Value) (s : Scalar) : Emission :=
  match s.toValue with
  | .ok v => (out.push v, .ok ())
  | .error type => (out, .error (.unsupportedInteger type))

mutual

/-- Appends the leaves of a datum. -/
def Datum.emit (out : Array Value) : Datum → Emission
  | .scalar s => emitScalar out s
  | .value v => (out.push v, .ok ())
  | .absent => (out, .error (.unsupportedType "None"))
  | .present d => d.emit out
  | .unit => (out, .error (.unsupportedType "unit"))
  | .unitStruct name => (out, .error (.unsupportedType name))
  | .wrapper _ d => d.emit out
  | .sequence items => emitAll out items
  | .tuple items => emitAll out items
  | .tupleStruct _ items => emitAll out items
  | .record _ fields => emitFields out fields
  | .variant name case _ => (out, .error (.unsupportedType ("enum " ++ name ++ "::" ++ case)))
  | .map _ => (out, .error (.unsupportedType "map"))
  | .failure text => (out, .error (.custom text))

/-- Appends the leaves of data from left to right. -/
def emitAll (out : Array Value) : List Datum → Emission
  | [] => (out, .ok ())
  | d :: rest =>
    match d.emit out with
    | (out, .ok ()) => emitAll out rest
    | (out, .error fault) => (out, .error fault)

/-- Appends the leaves of named data from left to right. -/
def emitFields (out : Array Value) : List (String × Datum) → Emission
  | [] => (out, .ok ())
  | (_, d) :: rest =>
    match d.emit out with
    | (out, .ok ()) => emitFields out rest
    | (out, .error fault) => (out, .error fault)

end

/-- Appends the leaves of data one after the other, and tells how the appending of each ended.  One
that ends with a fault does not keep those behind it from being appended. -/
def emitEach (out : Array Value) : List Datum → Array Value × List (Except Fault Unit)
  | [] => (out, [])
  | d :: rest =>
    match d.emit out with
    | (out, ending) =>
      match emitEach out rest with
      | (out, endings) => (out, ending :: endings)

/-- The leaves of a datum from left to right. -/
def Datum.flatten (d : Datum) : Except Fault (List Value) :=
  match d.emit #[] with
  | (out, .ok ()) => .ok out.toList
  | (_, .error fault) => .error fault

end PackedRecord
