import PackedRecord.Text.Visible

/-!
# Quoted texts

Three ways to show data on one line of plain characters: a character between single quotes, a
text between double quotes, and a byte string between `b"` and `"`.  In the first two a hidden
character is shown by its code point; in the last every byte outside printable ASCII is shown by
its two digits.
-/

namespace PackedRecord.Text

/-- A number in lower-case base 16, without leading zeros. -/
def hexText (n : Nat) : String :=
  String.ofList (Nat.toDigits 16 n)

/-- A character inside quotes of the given kind; only that kind of quote is escaped. -/
def escapeChar (quote c : Char) : String :=
  if c = '\x00' then "\\0"
  else if c = '\t' then "\\t"
  else if c = '\r' then "\\r"
  else if c = '\n' then "\\n"
  else if c = '\\' then "\\\\"
  else if c = quote then String.ofList ['\\', c]
  else if isVisible c then String.ofList [c]
  else "\\u\x7b" ++ hexText c.toNat ++ "\x7d"

/-- A character between single quotes. -/
def quoteChar (c : Char) : String :=
  "'" ++ escapeChar '\'' c ++ "'"

/-- A text between double quotes. -/
def quoteText (s : String) : String :=
  "\"" ++ String.join (s.toList.map (escapeChar '"')) ++ "\""

/-- A byte inside double quotes: printable ASCII as it is, both quotes and the backslash escaped,
and two digits for the rest. -/
def escapeByte (b : UInt8) : String :=
  let c := Char.ofNat b.toNat
  if c = '\t' then "\\t"
  else if c = '\r' then "\\r"
  else if c = '\n' then "\\n"
  else if c = '\\' ∨ c = '\'' ∨ c = '"' then String.ofList ['\\', c]
  else if 0x20 ≤ b.toNat ∧ b.toNat ≤ 0x7e then String.ofList [c]
  else "\\x" ++ String.ofList [Nat.digitChar (b.toNat / 16), Nat.digitChar (b.toNat % 16)]

/-- A byte string between `b"` and `"`. -/
def quoteBytes (bs : List UInt8) : String :=
  "b\"" ++ String.join (bs.map escapeByte) ++ "\""

end PackedRecord.Text
