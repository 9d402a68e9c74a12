import PackedRecord.Unpacking

/-!
# Records back to back

A stream reads one record after the other from the start of what remains of a buffer.  It ends
where nothing remains, and after the first fault, which it yields once.  A layout of no bytes would
never advance, so its stream ends without a record.
-/

namespace PackedRecord

structure RecordStream where
  layout : Layout
  /-- The bytes not read yet. -/
  rest : Array UInt8
  /-- Whether the stream has ended before the bytes did. -/
  stopped : Bool

namespace RecordStream

/-- The next record or fault, if there is one, and the stream after it. -/
def next (s : RecordStream) : Option (Except UnpackFault (List Value)) × RecordStream :=
  if s.stopped ∨ s.rest.isEmpty then (none, s)
  else
    match s.layout.unpackFront s.rest with
    | .error fault => (some (.error fault), { s with stopped := true })
    | .ok (values, consumed) =>
      if consumed = 0 then (none, { s with stopped := true })
      else (some (.ok values), { s with rest := s.rest.extract consumed s.rest.size })

/-- The steps that a stream can still take. -/
def remaining (s : RecordStream) : Nat :=
  if s.stopped then 0 else s.rest.size + 1

theorem remaining_lt_of_next {s t : RecordStream} {item : Except UnpackFault (List Value)}
    (h : s.next = (some item, t)) : t.remaining < s.remaining := by
  unfold next at h
  split at h
  · simp at h
  · rename_i going
    have open_ : s.stopped = false := by simp_all
    have full : 0 < s.rest.size := by
      apply Nat.pos_of_ne_zero
      intro empty
      exact going (Or.inr (by simp [Array.isEmpty, empty]))
    split at h
    · obtain ⟨-, rfl⟩ := Prod.mk.inj h
      simp [remaining, open_]
    · split at h
      · simp at h
      · obtain ⟨-, rfl⟩ := Prod.mk.inj h
        simp only [remaining, open_, Array.size_extract]
        simp
        omega

/-- All records and the fault, if any, up to the end, and the stream at its end. -/
def drain (s : RecordStream) : List (Except UnpackFault (List Value)) × RecordStream :=
  match h : s.next with
  | (none, t) => ([], t)
  | (some item, t) =>
    have := remaining_lt_of_next h
    let (items, last) := t.drain
    (item :: items, last)
termination_by s.remaining

theorem drain_of_next_none {s t : RecordStream} (h : s.next = (none, t)) : s.drain = ([], t) := by
  rw [drain]
  split
  · next t' h' =>
    rw [h] at h'
    rw [(Prod.mk.inj h').2]
  · next item t' h' =>
    rw [h] at h'
    cases (Prod.mk.inj h').1

theorem drain_of_next_some {s t : RecordStream} {item : Except UnpackFault (List Value)}
    (h : s.next = (some item, t)) : s.drain = (item :: t.drain.1, t.drain.2) := by
  rw [drain]
  split
  · next t' h' =>
    rw [h] at h'
    cases (Prod.mk.inj h').1
  · next item' t' h' =>
    rw [h] at h'
    obtain ⟨hitem, rfl⟩ := Prod.mk.inj h'
    rw [Option.some.inj hitem]

end RecordStream

/-- The stream of the records in a buffer. -/
def Layout.records (l : Layout) (buffer : Array UInt8) : RecordStream :=
  ⟨l, buffer, false⟩

end PackedRecord
