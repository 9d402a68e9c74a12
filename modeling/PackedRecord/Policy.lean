/-!
# Packing policies

Two questions have no answer in the format itself: what becomes of an integer that does not fit
its field, and of a dynamic string that is longer than its length byte can say.
-/

namespace PackedRecord

/-- What becomes of an integer outside the range of its field: it wraps around, or is refused. -/
inductive Overflow
  | wrap
  | strict
  deriving DecidableEq, Repr

/-- What becomes of a dynamic string of more than 255 bytes: it is refused, or cut. -/
inductive LongStrings
  | reject
  | truncate
  deriving DecidableEq, Repr

structure Policy where
  overflow : Overflow
  longStrings : LongStrings
  deriving DecidableEq, Repr

def Overflow.name : Overflow → String
  | wrap => "wrap"
  | strict => "strict"

def LongStrings.name : LongStrings → String
  | reject => "reject"
  | truncate => "truncate"

namespace Policy

/-- Integers wrap, long strings are refused. -/
def standard : Policy := ⟨.wrap, .reject⟩

/-- Integers must fit, long strings are refused. -/
def strict : Policy := ⟨.strict, .reject⟩

end Policy

end PackedRecord
