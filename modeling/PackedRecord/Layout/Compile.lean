import PackedRecord.Layout
import PackedRecord.Fault
import PackedRecord.Text.Blank

/-!
# Compiling a format

A format is read once from left to right, one character at a time, and the first character at
which something is wrong decides the fault.  Blanks are skipped wherever they stand.  Digits
gather into a count, which waits for the tag that it belongs to; a tag without one has the count
one.  A `<` may stand in front of everything else and means nothing, since every word is
little-endian.

Two states carry the work.  A `Draft` is the layout so far, and `Draft.add` places the slots of
one tag.  A `Scan` adds what the reader of the text remembers: the count that waits, and whether
anything but blanks has been seen.

A tag that is repeated asks for room for all of its slots at once, before the first is placed.
Whether there is room is not for the format to say: a `Room` answers, and compiling is defined for
any of them.  `Layout.compile` is the case of room for `slotLimit` slots in all.
-/

namespace PackedRecord

/-- What slots are kept in: it grants room for `wanted` slots beside the `held` ones, or refuses. -/
structure Room where
  grants : (held wanted : Nat) → Bool

/-- The number of slots that the standard room has place for. -/
def slotLimit : Nat := 0x40000000

def Room.standard : Room := ⟨fun held wanted => decide (wanted ≤ slotLimit - held)⟩

/-! ## Placing slots -/

/-- A layout under construction. -/
structure Draft where
  slots : Array Slot
  size : Nat
  arity : Nat
  dynamic : Bool

namespace Draft

def empty : Draft := ⟨#[], 0, 0, false⟩

/-- Places one slot at the end of the static region. -/
def place (d : Draft) (tag : Tag) (count : Nat) : Except FormatFault Draft :=
  match (mulSize? tag.width count).bind (addSize? d.size) with
  | none => .error .sizeOverflow
  | some size => .ok
    { slots := d.slots.push ⟨tag, count, d.size⟩
      size := size
      arity := if tag.hasValue then d.arity + 1 else d.arity
      dynamic := d.dynamic || tag == .dynamic }

/-- Places `n` slots of count one. -/
def placeMany (d : Draft) (tag : Tag) : Nat → Except FormatFault Draft
  | 0 => .ok d
  | n + 1 =>
    match d.place tag 1 with
    | .error fault => .error fault
    | .ok d => d.placeMany tag n

/-- Places `count` slots of count one, if there is room for them. -/
def placeAll (room : Room) (d : Draft) (tag : Tag) (count : Nat) : Except FormatFault Draft :=
  if room.grants d.slots.size count then d.placeMany tag count else .error (.tooManyFields count)

/-- Places the slots of a tag with its count: one slot with that capacity for `s`, `p` and `x` (and
no slot for a pad without bytes), and as many slots for the other tags.  Whether the slots of a
scalar fit the range of sizes is decided before there is a question of room. -/
def add (room : Room) (d : Draft) (tag : Tag) (count : Nat) : Except FormatFault Draft :=
  match tag.kind with
  | .pad => if count = 0 then .ok d else d.place tag count
  | .fixedBytes | .pascalString => d.place tag count
  | .dynamicString => d.placeAll room tag count
  | _ =>
    match (mulSize? tag.width count).bind (addSize? d.size) with
    | none => .error .sizeOverflow
    | some _ => d.placeAll room tag count

end Draft

/-! ## Reading the text -/

/-- A count that waits for its tag, with the position of its first digit. -/
structure Pending where
  start : Nat
  count : Nat
  deriving DecidableEq, Repr

/-- The state of the reader between two characters. -/
structure Scan where
  draft : Draft
  pending : Option Pending
  /-- Whether a tag or a `<` has been read. -/
  begun : Bool

namespace Scan

def start : Scan := ⟨.empty, none, false⟩

/-- The value of a decimal digit. -/
def digit? (c : Char) : Option Nat :=
  if c.isDigit then some (c.toNat - '0'.toNat) else none

/-- Reads the digit `n` at `position`. -/
def addDigit (s : Scan) (position n : Nat) : Except FormatFault Scan :=
  let p := s.pending.getD ⟨position, 0⟩
  match (mulSize? p.count 10).bind (addSize? · n) with
  | none => .error (.countOverflow p.start)
  | some count => .ok { s with pending := some ⟨p.start, count⟩ }

/-- Reads a character that is neither blank nor digit at `position`. -/
def addTag (room : Room) (s : Scan) (position : Nat) (c : Char) : Except FormatFault Scan :=
  if c = '<' ∧ s.begun = false ∧ s.pending = none then .ok { s with begun := true }
  else
    match Tag.ofChar? c with
    | none => .error (.unknownTag c position)
    | some tag =>
      match s.draft.add room tag ((s.pending.map (·.count)).getD 1) with
      | .error fault => .error fault
      | .ok draft => .ok ⟨draft, none, true⟩

/-- Reads the character at `position`. -/
def step (room : Room) (s : Scan) (position : Nat) (c : Char) : Except FormatFault Scan :=
  if Text.isBlank c then .ok s
  else
    match digit? c with
    | some n => s.addDigit position n
    | none => s.addTag room position c

/-- Reads the characters from `position` on. -/
def run (room : Room) (s : Scan) (position : Nat) : List Char → Except FormatFault Scan
  | [] => .ok s
  | c :: cs => (s.step room position c).bind fun s => s.run room (position + c.utf8Size) cs

/-- The draft at the end of the text, unless a count still waits for its tag. -/
def finish (s : Scan) : Except FormatFault Draft :=
  match s.pending with
  | some p => .error (.danglingCount p.start)
  | none => .ok s.draft

end Scan

/-- The layout of a format whose slots are kept in `room`. -/
def Layout.compileWithin (room : Room) (format : String) : Except FormatFault Layout :=
  match Scan.start.run room 0 format.toList with
  | .error fault => .error fault
  | .ok s =>
    match s.finish with
    | .error fault => .error fault
    | .ok d => .ok ⟨format, d.slots.toList, d.size, d.arity, d.dynamic⟩

/-- The layout of a format. -/
def Layout.compile (format : String) : Except FormatFault Layout :=
  Layout.compileWithin .standard format

end PackedRecord
