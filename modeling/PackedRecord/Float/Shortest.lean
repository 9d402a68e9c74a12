import PackedRecord.Float.Binary

/-!
# Shortest decimals

The text of a number has the fewest digits that still read back as the same number, and among
those the ones closest to it.

The decimals that read back as the magnitude with code `c` are those between the midpoints to its
two neighbours, the midpoints themselves included when `c` is even.  A unit is `2 ^ -1074`, so in
units of `10 ^ -1075` the magnitude and both midpoints are whole numbers, and the search below
needs natural numbers only: it goes from coarse to fine over the grids of multiples of
`10 ^ j` and stops at the first grid that has a point in the interval.  Only the two grid points
next to the magnitude need to be tried.
-/

namespace PackedRecord

/-- The number `digits * 10 ^ exponent`. -/
structure Decimal where
  digits : Nat
  exponent : Int
  deriving DecidableEq, Repr

/-- The position of the decimal point, counted from the first digit: a positive decimal lies
between `10 ^ (point - 1)`, included, and `10 ^ point`, excluded. -/
def Decimal.point (d : Decimal) : Int := (Nat.toDigits 10 d.digits).length + d.exponent

/-- Which of two equally close decimals is taken: the larger one, or the one with an even last
digit. -/
inductive Tie
  | up
  | toEven
  deriving DecidableEq, Repr

namespace Decimal

/-- The decimals that read back as one magnitude, in units of `10 ^ -1075`. -/
structure Interval where
  low : Nat
  value : Nat
  high : Nat
  closed : Bool

/-- The interval of a finite magnitude other than zero. -/
def Interval.ofMagnitude (c : Nat) : Interval where
  low := (FloatFormat.double.units (c - 1) + FloatFormat.double.units c) * Nat.pow 5 1075
  value := 2 * FloatFormat.double.units c * Nat.pow 5 1075
  high := (FloatFormat.double.units c + FloatFormat.double.units (c + 1)) * Nat.pow 5 1075
  closed := c % 2 == 0

def Interval.contains (i : Interval) (x : Nat) : Bool :=
  if i.closed then decide (i.low ≤ x ∧ x ≤ i.high) else decide (i.low < x ∧ x < i.high)

/-- The multiple of `10 ^ j` in the interval that is closest to its value, divided by `10 ^ j`. -/
def Interval.onGrid? (tie : Tie) (i : Interval) (j : Nat) : Option Nat :=
  let step := Nat.pow 10 j
  let below := i.value / step
  let rest := 2 * (i.value % step)
  match i.contains (below * step), i.contains ((below + 1) * step) with
  | true, true =>
    if rest < step then some below
    else if step < rest then some (below + 1)
    else match tie with
      | .up => some (below + 1)
      | .toEven => some (below + below % 2)
  | true, false => some below
  | false, true => some (below + 1)
  | false, false => none

/-- The point on the coarsest grid `10 ^ j`, for `j` up to a bound.  The finest grid holds the value
itself. -/
def Interval.coarsest (tie : Tie) (i : Interval) : Nat → Decimal
  | 0 => ⟨i.value, -1075⟩
  | j + 1 =>
    match i.onGrid? tie (j + 1) with
    | some d => ⟨d, (j + 1 : Nat) - 1075⟩
    | none => i.coarsest tie j

/-- The shortest decimal that reads back as the finite magnitude with code `c`, which is not
zero. -/
def shortest (tie : Tie) (c : Nat) : Decimal :=
  let i := Interval.ofMagnitude c
  i.coarsest tie (Nat.toDigits 10 i.value).length

end Decimal

end PackedRecord
