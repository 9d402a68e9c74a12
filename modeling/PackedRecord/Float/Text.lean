import PackedRecord.Float.Shortest

/-!
# The text of floating-point numbers

A number is written with its shortest decimal.  What remains to be chosen is a `NumberStyle`: how
ties between decimals go, whether a whole number keeps a `.0`, and for which positions of the
decimal point the digits are written out in full rather than with an exponent.
-/

namespace PackedRecord

/-- How the digits of a number are laid out. -/
structure NumberStyle where
  tie : Tie
  /-- Whether a whole number is followed by `.0`. -/
  pointZero : Bool
  /-- The positions of the decimal point, counted from the first digit, between which (the first
  excluded, the last included) no exponent is written; without them, none is written at all. -/
  positional : Option (Int × Int)

namespace NumberStyle

/-- Digits only, as short as they go: `1`, `0.1`, `1000000000000000000000`. -/
def plain : NumberStyle := ⟨.up, false, none⟩

/-- As `plain`, but a whole number shows that it is a floating-point number: `1.0`. -/
def pointed : NumberStyle := ⟨.up, true, none⟩

/-- The numbers of JSON: `1.0`, `0.00001`, `1e+16`, `1.5e-7`. -/
def json : NumberStyle := ⟨.toEven, true, some (-5, 16)⟩

end NumberStyle

namespace Decimal

/-- All digits, with the decimal point at its place. -/
def positional (pointZero : Bool) (d : Decimal) : String :=
  let ds := Nat.toDigits 10 d.digits
  if 0 ≤ d.exponent then
    String.ofList (ds ++ List.replicate d.exponent.toNat '0') ++ (if pointZero then ".0" else "")
  else if 0 < d.point then
    String.ofList (ds.take d.point.toNat) ++ "." ++ String.ofList (ds.drop d.point.toNat)
  else
    "0." ++ String.ofList (List.replicate (-d.point).toNat '0' ++ ds)

/-- One digit before the point, and the power of ten with its sign. -/
def scientific (d : Decimal) : String :=
  let ds := Nat.toDigits 10 d.digits
  let power := d.point - 1
  let mantissa :=
    if ds.length = 1 then String.ofList ds
    else String.ofList (ds.take 1) ++ "." ++ String.ofList (ds.drop 1)
  mantissa ++ (if 0 ≤ power then "e+" else "e-") ++ toString power.natAbs

/-- The text of a positive decimal in a style. -/
def text (style : NumberStyle) (d : Decimal) : String :=
  match style.positional with
  | none => d.positional style.pointZero
  | some (low, high) =>
    if low < d.point ∧ d.point ≤ high then d.positional style.pointZero else d.scientific

end Decimal

/-- The text of a number.  A zero keeps its sign, a NaN has none. -/
def Binary64.text (style : NumberStyle) (x : Binary64) : String :=
  if x.isNaN then "NaN"
  else
    let sign := if x.negative then "-" else ""
    if x.isZero then sign ++ (if style.pointZero then "0.0" else "0")
    else if x.isFinite then sign ++ (Decimal.shortest style.tie x.magnitude).text style
    else sign ++ "inf"

end PackedRecord
