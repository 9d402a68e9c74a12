import PackedRecord.Datum.Shape
import PackedRecord.Float.Reading

/-!
# JSON documents

A document as it is written: objects keep their entries in order, and numbers keep their digits, so
that an integer, a fraction and a number with an exponent stay three different things.

What a number stands for follows from how it is written.  Without fraction and exponent it is an
integer, as long as 64 bits hold it.  Every other number, a negative zero among them, stands for
the nearest binary64 number, and for none if that is infinite.
-/

namespace PackedRecord

/-! ## Numerals -/

/-- A number as it is written. -/
structure Numeral where
  negative : Bool
  /-- The digits before the point. -/
  whole : List Nat
  /-- The digits after the point, if there is one. -/
  fraction : Option (List Nat)
  exponent : Option Int
  deriving DecidableEq, Repr

namespace Numeral

/-- The number that digits stand for in base ten. -/
def ofDigits (ds : List Nat) : Nat := ds.foldl (fun n d => n * 10 + d) 0

/-- Whether there is neither a fraction nor an exponent. -/
def isInteger (n : Numeral) : Bool := n.fraction.isNone && n.exponent.isNone

/-- The magnitude as a decimal: all digits, and the power of ten that puts the point in place. -/
def decimal (n : Numeral) : Decimal :=
  let fraction := n.fraction.getD []
  ⟨ofDigits (n.whole ++ fraction), n.exponent.getD 0 - fraction.length⟩

/-- What a number is offered as, unless it is too large. -/
def offer? (n : Numeral) : Option Offer :=
  let whole := ofDigits n.whole
  if n.isInteger ∧ n.negative = false ∧ whole ≤ 0xffffffffffffffff then
    some (.unsigned (UInt64.ofNat whole))
  else if n.isInteger ∧ n.negative = true ∧ 0 < whole ∧ whole ≤ 0x8000000000000000 then
    some (.signed (Int64.ofInt (-(whole : Int))))
  else n.decimal.nearest?.map fun m => .float (.ofParts n.negative m)

end Numeral

/-! ## Documents -/

inductive Json
  | null
  | bool (b : Bool)
  | number (n : Numeral)
  | string (s : String)
  | array (items : List Json)
  | object (entries : List (String × Json))

end PackedRecord
