import Mathlib
import PackedRecord.Proofs.Stream.Replay
import PackedRecord.Proofs.Wire.Whole

/-!
# A stream partitions its buffer

The bytes of a stream may come from anywhere, and the stream must neither lose its place in them nor
go on for ever.  What it yields is a matter of the reader alone: a record wherever the reader finds
one behind the records before (`Layout.Finds`), then at most one fault, and then nothing
(`RecordStream.exists_yields`).

That this comes to an end is due to the bytes: a record has none only where its layout occupies none
(`Layout.consumed_eq_zero_iff`), and a stream stops there at once, so that every record takes at
least one byte off the buffer.  At the end all bytes belong to records, or the reader has refused
those that are left, or the layout has no use for any (`Layout.records_partition`).
-/

namespace PackedRecord

/-! ## Records in a row -/

/-- Bytes of records, each of which stands with the number of its own. -/
def bytesOfRecords (records : List (List Value × ℕ)) : ℕ := (records.map Prod.snd).sum

@[simp] lemma bytesOfRecords_nil : bytesOfRecords [] = 0 := rfl

@[simp] lemma bytesOfRecords_cons (record : List Value × ℕ) (records : List (List Value × ℕ)) :
    bytesOfRecords (record :: records) = record.2 + bytesOfRecords records := by
  simp [bytesOfRecords]

/-- What is behind a place in the rest of a buffer is behind a later place in the buffer. -/
lemma extract_behind (buffer : Array UInt8) (start n : ℕ) :
    (buffer.extract start buffer.size).extract n (buffer.extract start buffer.size).size =
      buffer.extract (start + n) buffer.size := by
  rw [Array.extract_extract, Array.size_extract]
  congr 1
  omega

namespace Layout

variable {l : Layout} {buffer rest : Array UInt8}

/-- What the reader finds from the start of a buffer on: records that have bytes, one behind the
other, each with the number of its bytes, and the rest of the buffer behind them. -/
inductive Finds (l : Layout) : Array UInt8 → List (List Value × ℕ) → Array UInt8 → Prop
  | nil {buffer : Array UInt8} : Finds l buffer [] buffer
  | cons {buffer rest : Array UInt8} {values : List Value} {consumed : ℕ}
      {records : List (List Value × ℕ)} (hfront : l.unpackFront buffer = .ok (values, consumed))
      (hpos : 0 < consumed) (hrest : Finds l (buffer.extract consumed buffer.size) records rest) :
      Finds l buffer ((values, consumed) :: records) rest

namespace Finds

variable {records : List (List Value × ℕ)}

lemma length_le (h : l.Finds buffer records rest) : records.length ≤ bytesOfRecords records := by
  induction h with
  | nil => exact le_rfl
  | cons hfront hpos hrest ih =>
    rw [List.length_cons, bytesOfRecords_cons]
    omega

/-- The records lie in the buffer, and the rest is all that is behind them. -/
lemma rest_eq (h : l.Finds buffer records rest) :
    bytesOfRecords records ≤ buffer.size ∧
      rest = buffer.extract (bytesOfRecords records) buffer.size := by
  induction h with
  | nil => simp
  | @cons buffer rest values consumed records hfront hpos hrest ih =>
    obtain ⟨hle, hrest⟩ := ih
    have hsize := consumed_le_size hfront
    rw [Array.size_extract] at hle
    rw [bytesOfRecords_cons]
    exact ⟨by omega, hrest.trans (extract_behind buffer consumed _)⟩

/-- Each record is the one at the front of what is behind the records before it. -/
lemma unpackFront_behind (h : l.Finds buffer records rest) {i : ℕ} (hi : i < records.length) :
    1 ≤ records[i].2 ∧
      l.unpackFront (buffer.extract (bytesOfRecords (records.take i)) buffer.size) =
        .ok records[i] := by
  induction h generalizing i with
  | nil => cases hi
  | @cons buffer rest values consumed records hfront hpos hrest ih =>
    cases i with
    | zero =>
      refine ⟨hpos, ?_⟩
      simpa using hfront
    | succ i =>
      obtain ⟨hone, hread⟩ := ih (i := i) (by simpa using hi)
      rw [extract_behind] at hread
      exact ⟨hone, by simpa using hread⟩

end Finds

end Layout

/-! ## The stream -/

namespace RecordStream

/-- The stream after a number of calls for its next item. -/
def after : ℕ → RecordStream → RecordStream
  | 0, s => s
  | n + 1, s => s.next.2.after n

/-- The calls for the next item are answered with these items, one by one, and with nothing from
then on. -/
def Yields (s : RecordStream) (items : List (Except UnpackFault (List Value))) : Prop :=
  ∀ n, (s.after n).next.1 = items[n]?

section

variable {s t : RecordStream} {items : List (Except UnpackFault (List Value))}

lemma yields_cons {item : Except UnpackFault (List Value)} (h : s.next = (some item, t))
    (ht : t.Yields items) : s.Yields (item :: items) := by
  intro n
  cases n with
  | zero => rw [after, h, List.getElem?_cons_zero]
  | succ n => rw [after, h, List.getElem?_cons_succ, ht n]

lemma yields_nil (h : s.next = (none, t)) (ht : t.Yields []) : s.Yields [] := by
  intro n
  cases n with
  | zero => rw [after, h, List.getElem?_nil]
  | succ n =>
    rw [after, h]
    exact ht n

/-- A stream that yields nothing and stays as it is yields nothing for ever. -/
lemma yields_nil_of_ended (h : s.next = (none, s)) : s.Yields [] := by
  intro n
  induction n with
  | zero => rw [after, h, List.getElem?_nil]
  | succ n ih =>
    rw [after, h]
    exact ih

end

lemma yields_of_stopped (l : Layout) (buffer : Array UInt8) :
    (⟨l, buffer, true⟩ : RecordStream).Yields [] :=
  yields_nil_of_ended rfl

lemma yields_of_empty (l : Layout) : (⟨l, #[], false⟩ : RecordStream).Yields [] :=
  yields_nil_of_ended rfl

/-- How a stream ends on the bytes that are left: with the fault that the reader reports of them, or
with none, because no bytes are left or because the reader uses none of them. -/
inductive Ending (l : Layout) (rest : Array UInt8) : Option UnpackFault → Prop
  | exhausted (hrest : rest = #[]) : Ending l rest none
  | idle {values : List Value} (hrest : rest ≠ #[])
      (hfront : l.unpackFront rest = .ok (values, 0)) : Ending l rest none
  | fault {fault : UnpackFault} (hrest : rest ≠ #[])
      (hfront : l.unpackFront rest = .error fault) : Ending l rest (some fault)

/-- **What a stream yields** are the records that the reader finds, and then the fault with which it
ends, if there is one.  By induction on the number of bytes, which every record makes smaller. -/
theorem exists_yields (l : Layout) (buffer : Array UInt8) :
    ∃ records rest fault?, l.Finds buffer records rest ∧ Ending l rest fault? ∧
      (⟨l, buffer, false⟩ : RecordStream).Yields
        (records.map (fun record => .ok record.1) ++ fault?.toList.map .error) := by
  induction hsize : buffer.size using Nat.strong_induction_on generalizing buffer with
  | _ size ih =>
    by_cases hbytes : buffer = #[]
    · subst hbytes
      exact ⟨[], #[], none, .nil, .exhausted rfl, yields_of_empty l⟩
    · have hnext := next_of_bytes (l := l) hbytes
      cases hfront : l.unpackFront buffer with
      | error fault =>
        simp only [hfront] at hnext
        exact ⟨[], buffer, some fault, .nil, .fault hbytes hfront,
          yields_cons hnext (yields_of_stopped l buffer)⟩
      | ok front =>
        obtain ⟨values, consumed⟩ := front
        simp only [hfront] at hnext
        by_cases hzero : consumed = 0
        · rw [if_pos hzero] at hnext
          subst hzero
          exact ⟨[], buffer, none, .nil, .idle hbytes hfront,
            yields_nil hnext (yields_of_stopped l buffer)⟩
        · rw [if_neg hzero] at hnext
          have hle := Layout.consumed_le_size hfront
          have hshorter : (buffer.extract consumed buffer.size).size < size := by
            rw [Array.size_extract]
            omega
          obtain ⟨records, rest, fault?, hfinds, hend, hyields⟩ := ih _ hshorter _ rfl
          exact ⟨(values, consumed) :: records, rest, fault?,
            .cons hfront (Nat.pos_of_ne_zero hzero) hfinds, hend, yields_cons hnext hyields⟩

end RecordStream

namespace Layout

/-- **A stream partitions its buffer.**  It yields records and then at most one fault, and nothing
for ever after.  The records are those that the reader finds at the front of the buffer and then
behind each other: each has at least one byte, so that there are no more of them than bytes.  The
fault is what the reader reports of the bytes that are left.  Without a fault no bytes are left,
unless the layout occupies none, and then nothing is yielded at all. -/
theorem records_partition (room : Room) (format : String) (l : Layout)
    (hl : compileWithin room format = .ok l) (buffer : Array UInt8) :
    ∃ (records : List (List Value × ℕ)) (fault? : Option UnpackFault),
      (l.records buffer).Yields
        (records.map (fun record => .ok record.1) ++ fault?.toList.map .error) ∧
      records.length ≤ buffer.size ∧
      (∀ (i : ℕ) (hi : i < records.length), 1 ≤ records[i].2 ∧
        l.unpackFront (buffer.extract (bytesOfRecords (records.take i)) buffer.size) =
          .ok records[i]) ∧
      (∀ fault, fault? = some fault → bytesOfRecords records < buffer.size ∧
        l.unpackFront (buffer.extract (bytesOfRecords records) buffer.size) = .error fault) ∧
      (fault? = none → bytesOfRecords records = buffer.size ∨
        l.size = 0 ∧ l.dynamic = false ∧ records = []) := by
  have hwf := wellFormed_of_compile hl
  obtain ⟨records, rest, fault?, hfinds, hend, hyields⟩ := RecordStream.exists_yields l buffer
  obtain ⟨hle, hrest⟩ := hfinds.rest_eq
  have hleft : rest.size = buffer.size - bytesOfRecords records := by
    rw [hrest, Array.size_extract]
    omega
  refine ⟨records, fault?, hyields, hfinds.length_le.trans hle,
    fun i hi => hfinds.unpackFront_behind hi, ?_, ?_⟩
  · rintro fault rfl
    cases hend with
    | fault hbytes hfront =>
      have hpos : rest.size ≠ 0 := by simpa using hbytes
      rw [hrest] at hfront
      exact ⟨by omega, hfront⟩
  · rintro rfl
    cases hend with
    | exhausted hbytes =>
      left
      have hzero : rest.size = 0 := by simp [hbytes]
      omega
    | idle hbytes hfront =>
      right
      obtain ⟨hsize, hdynamic⟩ := (consumed_eq_zero_iff hwf hfront).mp rfl
      refine ⟨hsize, hdynamic, ?_⟩
      -- A record in front would have bytes, against the layout.
      cases hfinds with
      | nil => rfl
      | cons hfirst hpos _ =>
        have hzero := (consumed_eq_zero_iff hwf hfirst).mpr ⟨hsize, hdynamic⟩
        omega

/-- Two records with strings of their own lengths, and a byte that begins a third. -/
theorem records_partition_cut :
    ∃ (records : List (List Value × ℕ)) (fault? : Option UnpackFault),
      records.length = 2 ∧ fault? = some (.truncated 2 1) ∧
        (ofFields "B S" [⟨.uint8, 1⟩, ⟨.dynamic, 1⟩]).unpackFront
            ((#[1, 1, 97, 2, 0, 3] : Array UInt8).extract (bytesOfRecords records) 6) =
          .error (.truncated 2 1) := by
  obtain ⟨records, fault?, hyields, -, -, hfault, -⟩ :=
    records_partition .standard "B S" (ofFields "B S" [⟨.uint8, 1⟩, ⟨.dynamic, 1⟩]) rfl
      #[1, 1, 97, 2, 0, 3]
  have hsecond := (hyields 1).symm.trans
    (show _ = some (.ok [.uint 2, .bytes []]) by decide +kernel)
  have hthird := (hyields 2).symm.trans (show _ = some (.error (.truncated 2 1)) by decide +kernel)
  match records, fault? with
  | [], fault? => cases fault? <;> simp at hsecond
  | [_], fault? => cases fault? <;> simp at hsecond
  | [_, _], none => simp at hthird
  | [_, _], some fault =>
    obtain rfl : fault = .truncated 2 1 := by simpa using hthird
    exact ⟨_, _, rfl, rfl, (hfault _ rfl).2⟩
  | _ :: _ :: _ :: _, fault? => simp at hthird

end Layout

end PackedRecord
