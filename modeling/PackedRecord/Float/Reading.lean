import PackedRecord.Float.Shortest

/-!
# Reading decimals

A decimal of any size and precision stands for the binary64 number nearest to it, a tie going to
the even neighbour.  All digits take part in the decision.

Only decimals whose leading digit is near the range of binary64 need to be computed with: one of
`10 ^ 309` or more is too large, and one below `10 ^ -324` is less than half of the smallest
magnitude and becomes zero.  So no power of ten is formed whose exponent exceeds the number of
digits by much.
-/

namespace PackedRecord.Decimal

/-- The code of the magnitude nearest to a decimal, infinity for those that are too large. -/
def nearest (d : Decimal) : Nat :=
  if d.digits = 0 then 0
  else if 309 < d.point then FloatFormat.double.infinity
  else if d.point ≤ -324 then 0
  else if 0 ≤ d.exponent then
    FloatFormat.double.nearest
      (d.digits * Nat.pow 10 d.exponent.toNat * FloatFormat.double.one) 1
  else
    FloatFormat.double.nearest (d.digits * FloatFormat.double.one) (Nat.pow 10 d.exponent.natAbs)

/-- The code of the nearest magnitude, if that is finite. -/
def nearest? (d : Decimal) : Option Nat :=
  let code := d.nearest
  if code < FloatFormat.double.infinity then some code else none

end PackedRecord.Decimal
