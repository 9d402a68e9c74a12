/-!
# Binary floating-point numbers

A binary32 or binary64 number is its bit pattern: a sign bit above a *magnitude code*.  The
codes below that of infinity are the finite magnitudes in increasing order, and the codes above
it are the NaNs.

Every finite magnitude is a whole number of *units*, the least positive number of the format
(`2 ^ -149` or `2 ^ -1074`).  So values are compared, widened and rounded in natural numbers
alone: `FloatFormat.units` reads a code, and `FloatFormat.nearest` finds the code closest to a quotient of
units, a tie going to the even code.  Since codes are in order of magnitude, a mantissa that
rounds up past its last value carries into the next exponent by itself, and past the largest
finite number into infinity.
-/

namespace PackedRecord

/-! ## Formats -/

/-- The widths of the two parts of a magnitude code. -/
structure FloatFormat where
  fraction : Nat
  exponent : Nat

namespace FloatFormat

def single : FloatFormat := ⟨23, 8⟩

def double : FloatFormat := ⟨52, 11⟩

/-- The magnitude code of infinity; larger codes are NaNs. -/
def infinity (f : FloatFormat) : Nat := (Nat.pow 2 f.exponent - 1) * Nat.pow 2 f.fraction

/-- The number one, in units. -/
def one (f : FloatFormat) : Nat := Nat.pow 2 (f.fraction + Nat.pow 2 (f.exponent - 1) - 2)

/-- The magnitude with code `c`, in units.  The code of infinity is read as the power of two
that would follow the largest finite magnitude. -/
def units (f : FloatFormat) (c : Nat) : Nat :=
  let k := c / Nat.pow 2 f.fraction
  if k = 0 then c else (c % Nat.pow 2 f.fraction + Nat.pow 2 f.fraction) * Nat.pow 2 (k - 1)

end FloatFormat

/-- The integer nearest to `num / den`, a half going to the even neighbour. -/
def roundHalfEven (num den : Nat) : Nat :=
  let q := num / den
  let r := 2 * (num % den)
  if r < den then q
  else if den < r then q + 1
  else q + q % 2

/-- The code of the magnitude nearest to `num / den` units, a tie going to the even code. -/
def FloatFormat.nearest (f : FloatFormat) (num den : Nat) : Nat :=
  let k := Nat.log2 (num / den) - f.fraction
  min (k * Nat.pow 2 f.fraction + roundHalfEven num (den * Nat.pow 2 k)) f.infinity

/-! ## The two types -/

/-- A binary32 number, by its bits. -/
structure Binary32 where
  bits : UInt32
  deriving DecidableEq, Repr

/-- A binary64 number, by its bits. -/
structure Binary64 where
  bits : UInt64
  deriving DecidableEq, Repr

namespace Binary32

def negative (x : Binary32) : Bool := decide (0x80000000 ≤ x.bits.toNat)

def magnitude (x : Binary32) : Nat := x.bits.toNat % 0x80000000

def ofParts (negative : Bool) (magnitude : Nat) : Binary32 :=
  ⟨UInt32.ofNat (negative.toNat * 0x80000000 + magnitude)⟩

def isNaN (x : Binary32) : Bool := decide (FloatFormat.single.infinity < x.magnitude)

/-- The binary32 number nearest to an integer. -/
def ofInt (x : Int) : Binary32 :=
  ofParts (decide (x < 0)) (FloatFormat.single.nearest (x.natAbs * FloatFormat.single.one) 1)

end Binary32

namespace Binary64

def negative (x : Binary64) : Bool := decide (0x8000000000000000 ≤ x.bits.toNat)

def magnitude (x : Binary64) : Nat := x.bits.toNat % 0x8000000000000000

def ofParts (negative : Bool) (magnitude : Nat) : Binary64 :=
  ⟨UInt64.ofNat (negative.toNat * 0x8000000000000000 + magnitude)⟩

def isNaN (x : Binary64) : Bool := decide (FloatFormat.double.infinity < x.magnitude)

def isFinite (x : Binary64) : Bool := decide (x.magnitude < FloatFormat.double.infinity)

/-- Either of the two zeros. -/
def isZero (x : Binary64) : Bool := decide (x.magnitude = 0)

/-- Numerical equality: a NaN equals nothing, and the two zeros equal each other. -/
def equal (x y : Binary64) : Bool :=
  !x.isNaN && !y.isNaN && (decide (x = y) || (x.isZero && y.isZero))

/-- The binary64 number nearest to an integer. -/
def ofInt (x : Int) : Binary64 :=
  ofParts (decide (x < 0)) (FloatFormat.double.nearest (x.natAbs * FloatFormat.double.one) 1)

/-! ## Between the formats

One unit of binary32 is `2 ^ 925` units of binary64.  A NaN keeps its sign and the leading bits of
its payload, and becomes a quiet one. -/

/-- Units of binary64 in one unit of binary32. -/
def unitRatio : Nat := Nat.pow 2 925

/-- The nearest binary32 number. -/
def narrow (x : Binary64) : Binary32 :=
  if x.isNaN then
    .ofParts x.negative (FloatFormat.single.infinity + 0x400000 + x.magnitude / 0x20000000 % 0x400000)
  else
    .ofParts x.negative (FloatFormat.single.nearest (FloatFormat.double.units x.magnitude) unitRatio)

/-- The same number; every binary32 number is a binary64 number. -/
def widen (x : Binary32) : Binary64 :=
  if x.isNaN then
    .ofParts x.negative (FloatFormat.double.infinity + 0x8000000000000 + x.magnitude % 0x400000 * 0x20000000)
  else if x.magnitude = FloatFormat.single.infinity then
    .ofParts x.negative FloatFormat.double.infinity
  else
    .ofParts x.negative (FloatFormat.double.nearest (FloatFormat.single.units x.magnitude * unitRatio) 1)

end Binary64

end PackedRecord
