import PackedRecord.Datum.Shape

/-!
# Rebuilding

A datum is rebuilt from a list of values that its leaves take one by one from the front.  All parts
of a shape share that list, and what is left of it after a fault can be read on.

A sequence has no length of its own: it takes elements as long as values are left.  An element that
takes values takes at least one, so a sequence has at most as many elements as there were values
when it started.  Where values are left after that many elements, the elements take none and there
would be no end to them; this is a fault of its own.
-/

namespace PackedRecord

/-- What was rebuilt, and the values left. -/
abbrev Rebuilt (α : Type) := Except Fault α × List Value

/-- Applies a function to what was rebuilt. -/
def Rebuilt.map {α β : Type} (f : α → β) (r : Rebuilt α) : Rebuilt β :=
  (r.1.map f, r.2)

/-- Rebuilds elements as long as values are left, and at most `bound` of them. -/
def rebuildRest (element : List Value → Rebuilt Datum) :
    (bound : Nat) → List Value → Rebuilt (List Datum)
  | _, [] => (.ok [], [])
  | 0, values => (.error .endlessSequence, values)
  | bound + 1, values =>
    match element values with
    | (.error fault, rest) => (.error fault, rest)
    | (.ok d, rest) => Rebuilt.map (d :: ·) (rebuildRest element bound rest)

/-- Rebuilds a leaf. -/
def Leaf.rebuild (l : Leaf) : List Value → Rebuilt Datum
  | [] => (.error .outOfValues, [])
  | v :: rest => (l.take v, rest)

mutual

/-- Rebuilds a datum of a shape. -/
def Shape.rebuild : Shape → List Value → Rebuilt Datum
  | .leaf l, values => l.rebuild values
  | .option s, values => Rebuilt.map .present (s.rebuild values)
  | .unit, values => (.error (.unsupportedType "unit"), values)
  | .unitStruct name, values => (.error (.unsupportedType name), values)
  | .wrapper name s, values => Rebuilt.map (.wrapper name) (s.rebuild values)
  | .sequence s, values => Rebuilt.map .sequence (rebuildRest s.rebuild values.length values)
  | .tuple items, values => Rebuilt.map .tuple (rebuildAll items values)
  | .tupleStruct name items, values => Rebuilt.map (.tupleStruct name) (rebuildAll items values)
  | .record name fields, values => Rebuilt.map (.record name) (rebuildFields fields values)
  | .enumeration name, values => (.error (.unsupportedType ("enum " ++ name)), values)
  | .map, values => (.error (.unsupportedType "map"), values)

/-- Rebuilds data of several shapes from left to right. -/
def rebuildAll : List Shape → List Value → Rebuilt (List Datum)
  | [], values => (.ok [], values)
  | s :: shapes, values =>
    match s.rebuild values with
    | (.error fault, rest) => (.error fault, rest)
    | (.ok d, rest) => Rebuilt.map (d :: ·) (rebuildAll shapes rest)

/-- Rebuilds named data from left to right. -/
def rebuildFields : List (String × Shape) → List Value → Rebuilt (List (String × Datum))
  | [], values => (.ok [], values)
  | (name, s) :: fields, values =>
    match s.rebuild values with
    | (.error fault, rest) => (.error fault, rest)
    | (.ok d, rest) => Rebuilt.map ((name, d) :: ·) (rebuildFields fields rest)

end

/-- Whether all values have been taken. -/
def requireEnd (values : List Value) : Except Fault Unit :=
  if values.isEmpty then .ok () else .error (.trailingValues values.length)

/-- Rebuilds a datum from exactly these values. -/
def Shape.ofValues (s : Shape) (values : List Value) : Except Fault Datum :=
  match s.rebuild values with
  | (.error fault, _) => .error fault
  | (.ok d, rest) =>
    match requireEnd rest with
    | .error fault => .error fault
    | .ok () => .ok d

end PackedRecord
