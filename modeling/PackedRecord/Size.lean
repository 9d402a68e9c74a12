/-!
# Sizes

Offsets, counts and lengths are natural numbers, and a size is one that fits 64 bits.  Sums and
products that would leave that range are not sizes, so the two operations here answer `none`
for them; every other module decides for itself what that absence means.
-/

namespace PackedRecord

/-- The largest size, offset or count. -/
def maxSize : Nat := 0xffffffffffffffff

/-- The sum of two sizes, where it is a size. -/
def addSize? (a b : Nat) : Option Nat :=
  if a + b ≤ maxSize then some (a + b) else none

/-- The product of two sizes, where it is a size. -/
def mulSize? (a b : Nat) : Option Nat :=
  if a * b ≤ maxSize then some (a * b) else none

theorem addSize?_eq_some_iff {a b n : Nat} : addSize? a b = some n ↔ a + b ≤ maxSize ∧ n = a + b := by
  grind [addSize?]

theorem mulSize?_eq_some_iff {a b n : Nat} : mulSize? a b = some n ↔ a * b ≤ maxSize ∧ n = a * b := by
  grind [mulSize?]

end PackedRecord
