import PackedRecord.Scalar

/-!
# Refusals

A reader that asks for one type of data and is offered another refuses it.  A refusal names what
was found and what was expected, and tells apart data of the wrong type from data of the right
type whose value does not fit.
-/

namespace PackedRecord

/-- What was offered, as far as a refusal shows it. -/
inductive Found
  | bool (b : Bool)
  | integer (x : Int)
  | wideInteger (type : IntType) (x : Int)
  | float (x : Binary64)
  | text (s : String)
  | bytes
  | unit
  | sequence
  | map
  deriving DecidableEq

/-- How a source speaks of its data: its word for the absence of data, and its numbers. -/
structure Wording where
  unit : String
  numbers : NumberStyle

def Wording.plain : Wording := ⟨"unit value", .pointed⟩

def Wording.json : Wording := ⟨"null", .json⟩

/-- The description of what was found. -/
def Found.describe (wording : Wording) : Found → String
  | bool b => "boolean `" ++ (if b then "true" else "false") ++ "`"
  | integer x => "integer `" ++ toString x ++ "`"
  | wideInteger type x => "integer `" ++ toString x ++ "` as " ++ type.name
  | float x => "floating point `" ++ x.text wording.numbers ++ "`"
  | text s => "string " ++ Text.quoteText s
  | bytes => "byte array"
  | unit => wording.unit
  | sequence => "sequence"
  | map => "map"

inductive Refusal
  | invalidType (found : Found) (expected : String)
  | invalidValue (found : Found) (expected : String)
  deriving DecidableEq

def Refusal.message (wording : Wording) : Refusal → String
  | invalidType found expected =>
    "invalid type: " ++ found.describe wording ++ ", expected " ++ expected
  | invalidValue found expected =>
    "invalid value: " ++ found.describe wording ++ ", expected " ++ expected

end PackedRecord
