import PackedRecord.Scalar

/-!
# Structured data

A datum is a tree of typed data: scalars and values at the leaves, and above them options, named
wrappers, sequences, tuples and records.  It may also hold what no flat record has a place for:
absent options, units, variants and maps.
-/

namespace PackedRecord

inductive Datum
  | scalar (s : Scalar)
  /-- A value as it is. -/
  | value (v : Value)
  /-- An option without content. -/
  | absent
  /-- An option with content. -/
  | present (d : Datum)
  | unit
  /-- A type of one element, which its name is all of. -/
  | unitStruct (name : String)
  /-- One datum under a name of its own. -/
  | wrapper (name : String) (d : Datum)
  | sequence (items : List Datum)
  | tuple (items : List Datum)
  | tupleStruct (name : String) (items : List Datum)
  | record (name : String) (fields : List (String × Datum))
  /-- One case of an enumeration, with what it holds. -/
  | variant (name case : String) (content : Datum)
  | map (entries : List (Datum × Datum))
  /-- Data that reports a fault of its own in place of its content. -/
  | failure (text : String)

end PackedRecord
