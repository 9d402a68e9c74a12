import PackedRecord.Json.Document

/-!
# Reading JSON

The text of a document is read from left to right.  Every reader takes the characters that are left
and answers with what it read and the characters after it, or with nothing where the text breaks the
grammar of RFC 8259.  A number too large for binary64 is no document either.

Values nest, so their readers carry a bound on the steps to come; the length of the text suffices,
since every step reads a character.
-/

namespace PackedRecord.Json

/-! ## Blanks, digits and numbers -/

def skipBlanks : List Char → List Char
  | c :: cs => if c = ' ' ∨ c = '\t' ∨ c = '\n' ∨ c = '\r' then skipBlanks cs else c :: cs
  | [] => []

/-- The digits at the front. -/
def readDigits (cs : List Char) : List Nat × List Char :=
  let (ds, rest) := cs.span Char.isDigit
  (ds.map fun c => c.toNat - '0'.toNat, rest)

/-- The digits before the point: a single zero, or digits that do not begin with one. -/
def readWhole (cs : List Char) : Option (List Nat × List Char) :=
  match readDigits cs with
  | ([], _) => none
  | (0 :: _ :: _, _) => none
  | (ds, rest) => some (ds, rest)

def readFraction : List Char → Option (Option (List Nat) × List Char)
  | '.' :: cs =>
    match readDigits cs with
    | ([], _) => none
    | (ds, rest) => some (some ds, rest)
  | cs => some (none, cs)

def readExponent : List Char → Option (Option Int × List Char)
  | c :: cs =>
    if c = 'e' ∨ c = 'E' then
      let (negative, cs) := match cs with
        | '-' :: cs => (true, cs)
        | '+' :: cs => (false, cs)
        | cs => (false, cs)
      match readDigits cs with
      | ([], _) => none
      | (ds, rest) =>
        let e : Int := Numeral.ofDigits ds
        some (some (if negative then -e else e), rest)
    else some (none, c :: cs)
  | [] => some (none, [])

def readNumeral (cs : List Char) : Option (Numeral × List Char) := do
  let (negative, cs) := match cs with
    | '-' :: cs => (true, cs)
    | cs => (false, cs)
  let (whole, cs) ← readWhole cs
  let (fraction, cs) ← readFraction cs
  let (exponent, cs) ← readExponent cs
  let n : Numeral := ⟨negative, whole, fraction, exponent⟩
  if n.offer?.isSome then some (n, cs) else none

/-! ## Strings -/

def hexDigit? (c : Char) : Option Nat :=
  if c.isDigit then some (c.toNat - '0'.toNat)
  else if 'a' ≤ c ∧ c ≤ 'f' then some (c.toNat - 'a'.toNat + 10)
  else if 'A' ≤ c ∧ c ≤ 'F' then some (c.toNat - 'A'.toNat + 10)
  else none

/-- The UTF-16 unit in four base-16 digits. -/
def readUnit : List Char → Option (Nat × List Char)
  | a :: b :: c :: d :: cs => do
    let a ← hexDigit? a
    let b ← hexDigit? b
    let c ← hexDigit? c
    let d ← hexDigit? d
    some (((a * 16 + b) * 16 + c) * 16 + d, cs)
  | _ => none

/-- The character after a backslash.  A high surrogate needs a low one behind it. -/
def readEscape : List Char → Option (Char × List Char)
  | '"' :: cs => some ('"', cs)
  | '\\' :: cs => some ('\\', cs)
  | '/' :: cs => some ('/', cs)
  | 'b' :: cs => some ('\x08', cs)
  | 'f' :: cs => some ('\x0c', cs)
  | 'n' :: cs => some ('\n', cs)
  | 'r' :: cs => some ('\r', cs)
  | 't' :: cs => some ('\t', cs)
  | 'u' :: cs =>
    match readUnit cs with
    | none => none
    | some (high, cs) =>
      if high < 0xd800 ∨ 0xe000 ≤ high then some (Char.ofNat high, cs)
      else if 0xdc00 ≤ high then none
      else
        match cs with
        | '\\' :: 'u' :: cs =>
          match readUnit cs with
          | none => none
          | some (low, cs) =>
            if 0xdc00 ≤ low ∧ low < 0xe000 then
              some (Char.ofNat (0x10000 + (high - 0xd800) * 0x400 + (low - 0xdc00)), cs)
            else none
        | _ => none
  | _ => none

/-- The rest of a string behind its opening quote; `seen` holds its characters so far, the last one
first. -/
def readString (seen : List Char) : Nat → List Char → Option (String × List Char)
  | 0, _ => none
  | _ + 1, [] => none
  | fuel + 1, c :: cs =>
    if c = '"' then some (String.ofList seen.reverse, cs)
    else if c = '\\' then
      match readEscape cs with
      | none => none
      | some (c, cs) => readString (c :: seen) fuel cs
    else if c.toNat < 0x20 then none
    else readString (c :: seen) fuel cs

/-! ## Documents -/

mutual

/-- A document. -/
def readValue : Nat → List Char → Option (Json × List Char)
  | 0, _ => none
  | fuel + 1, cs =>
    match skipBlanks cs with
    | 'n' :: 'u' :: 'l' :: 'l' :: cs => some (.null, cs)
    | 't' :: 'r' :: 'u' :: 'e' :: cs => some (.bool true, cs)
    | 'f' :: 'a' :: 'l' :: 's' :: 'e' :: cs => some (.bool false, cs)
    | '"' :: cs => (readString [] fuel cs).map fun (s, cs) => (.string s, cs)
    | '[' :: cs =>
      match skipBlanks cs with
      | ']' :: cs => some (.array [], cs)
      | cs => (readItems [] fuel cs).map fun (items, cs) => (.array items, cs)
    | '\x7b' :: cs =>
      match skipBlanks cs with
      | '\x7d' :: cs => some (.object [], cs)
      | cs => (readEntries [] fuel cs).map fun (entries, cs) => (.object entries, cs)
    | cs => (readNumeral cs).map fun (n, cs) => (.number n, cs)

/-- The rest of an array from an item on; `seen` holds the items so far, the last one first. -/
def readItems (seen : List Json) : Nat → List Char → Option (List Json × List Char)
  | 0, _ => none
  | fuel + 1, cs =>
    match readValue fuel cs with
    | none => none
    | some (item, cs) =>
      match skipBlanks cs with
      | ',' :: cs => readItems (item :: seen) fuel cs
      | ']' :: cs => some ((item :: seen).reverse, cs)
      | _ => none

/-- The rest of an object from an entry on; `seen` holds the entries so far, the last one first. -/
def readEntries (seen : List (String × Json)) :
    Nat → List Char → Option (List (String × Json) × List Char)
  | 0, _ => none
  | fuel + 1, cs =>
    match skipBlanks cs with
    | '"' :: cs =>
      match readString [] fuel cs with
      | none => none
      | some (key, cs) =>
        match skipBlanks cs with
        | ':' :: cs =>
          match readValue fuel cs with
          | none => none
          | some (item, cs) =>
            match skipBlanks cs with
            | ',' :: cs => readEntries ((key, item) :: seen) fuel cs
            | '\x7d' :: cs => some (((key, item) :: seen).reverse, cs)
            | _ => none
        | _ => none
    | _ => none

end

/-- The document in a text that holds nothing else. -/
def parse? (text : String) : Option Json :=
  let cs := text.toList
  match readValue (cs.length + 1) cs with
  | some (json, rest) => if (skipBlanks rest).isEmpty then some json else none
  | none => none

end PackedRecord.Json
