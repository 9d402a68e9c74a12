import PackedRecord.Json.Reader
import PackedRecord.Json.Writer

/-!
# Values in JSON

Integers and booleans are written as such and numbers in the style of JSON, which has no NaN and no
infinity; these become `null`.  A byte string becomes the array of its bytes.

Reading is more generous: a string stands for the bytes of its text.
-/

namespace PackedRecord

namespace Value

/-- A value in JSON. -/
def toJson : Value → String
  | int i => toString i.toInt
  | uint u => toString u.toNat
  | float x => if x.isFinite then x.text .json else "null"
  | bool b => if b then "true" else "false"
  | bytes bs => Json.bracket "[" "]" (bs.map fun b => toString b.toNat)

/-- A list of values in JSON. -/
def listToJson (values : List Value) : String :=
  Json.bracket "[" "]" (values.map toJson)

end Value

namespace Json

mutual

/-- What a document is offered as. -/
def offer : Json → Offer
  | null => .unit
  | bool b => .bool b
  | number n => n.offer?.getD .unit
  | string s => .text s
  | array items => .sequence (offers items)
  | object _ => .map

/-- What the items of an array are offered as. -/
def offers : List Json → List Offer
  | [] => []
  | item :: items => item.offer :: offers items

end

/-- The value that a document stands for. -/
def toValue (json : Json) : Except Refusal Value :=
  Value.accept json.offer

/-- The value that the text of a document stands for.  The fault of a text that is no document is
`none`. -/
def valueOfText (text : String) : Except (Option Refusal) Value :=
  match parse? text with
  | none => .error none
  | some json => json.toValue.mapError some

end Json

end PackedRecord
