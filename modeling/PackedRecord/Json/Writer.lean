import PackedRecord.Json.Document

/-!
# Writing JSON

A document is written without blanks, its entries in order.  Numbers are written with the digits
they hold, so a document that was read is written with the same numbers.  In strings only the
characters that the grammar excludes are escaped: the quote, the backslash and the characters below
the blank.
-/

namespace PackedRecord

/-- The digits of a number in base ten. -/
def Numeral.digitText (ds : List Nat) : String :=
  String.ofList (ds.map Nat.digitChar)

/-- A number as it is written. -/
def Numeral.text (n : Numeral) : String :=
  (if n.negative then "-" else "") ++ digitText n.whole ++
    (match n.fraction with
      | some ds => "." ++ digitText ds
      | none => "") ++
    (match n.exponent with
      | some e => "e" ++ toString e
      | none => "")

namespace Json

/-- A character inside a string. -/
def escapeChar (c : Char) : String :=
  if c = '"' then "\\\""
  else if c = '\\' then "\\\\"
  else if c.toNat < 0x20 then
    "\\u00" ++ String.ofList [Nat.digitChar (c.toNat / 16), Nat.digitChar (c.toNat % 16)]
  else String.singleton c

/-- A text between quotes. -/
def quote (s : String) : String :=
  "\"" ++ String.join (s.toList.map escapeChar) ++ "\""

/-- Items between brackets, with commas between them. -/
def bracket (opening closing : String) (items : List String) : String :=
  opening ++ ",".intercalate items ++ closing

mutual

/-- The text of a document. -/
def render : Json → String
  | null => "null"
  | bool b => if b then "true" else "false"
  | number n => n.text
  | string s => quote s
  | array items => bracket "[" "]" (renderItems items)
  | object entries => bracket "\x7b" "\x7d" (renderEntries entries)

/-- The texts of the items of an array. -/
def renderItems : List Json → List String
  | [] => []
  | item :: items => item.render :: renderItems items

/-- The texts of the entries of an object. -/
def renderEntries : List (String × Json) → List String
  | [] => []
  | (key, item) :: entries => (quote key ++ ":" ++ item.render) :: renderEntries entries

end

end Json

end PackedRecord
