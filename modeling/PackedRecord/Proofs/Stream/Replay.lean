import Mathlib
import PackedRecord.Stream
import PackedRecord.Proofs.Stream.Appending
import PackedRecord.Proofs.Wire.RoundTrip
import PackedRecord.Proofs.Wire.Shortfall

/-!
# Reading back what was appended

A buffer that a run of packing steps has filled is read as a stream of records: one for each step
that has succeeded, in the order of the steps, with the values that the record of that step has by
itself, and then the stream is at its end without a fault (`Layout.drain_runAll`).

The stream has nothing to go by but the bytes.  What keeps it in step with the writer is that a
record ends where its own bytes say, whatever follows (`Layout.unpackFront_of_unpack`), and that a
record of a layout that occupies bytes is never empty (`Layout.size_pos_of_unpack`), so that the
stream moves on with every record.
-/

namespace PackedRecord

/-! ## Records have bytes -/

section

variable {slots : List Slot} {pieces : List (List UInt8)}

/-- A record has at least its static bytes. -/
lemma staticSize_le_of_fills (hfills : List.Forall₂ Slot.Fills slots pieces)
    (hproper : ∀ s ∈ slots, s.field.Proper) : staticSize slots ≤ pieces.flatten.length := by
  induction hfills with
  | nil => exact le_rfl
  | @cons s piece slots pieces hpiece _ ih =>
    obtain ⟨hs, hproper⟩ := List.forall_mem_cons.mp hproper
    have hrest := ih hproper
    have hsize : s.size ≤ piece.length := by
      by_cases hdynamic : s.tag = .dynamic
      · rw [Slot.size_of_dynamic hs hdynamic]
        exact Nat.zero_le _
      · exact (Slot.length_of_fills hpiece hdynamic).ge
    rw [staticSize_cons, List.flatten_cons, List.length_append]
    omega

/-- A record with a dynamic string has at least a length byte. -/
lemma length_pos_of_dynamic (hfills : List.Forall₂ Slot.Fills slots pieces)
    (hdynamic : ∃ s ∈ slots, s.tag = .dynamic) : 0 < pieces.flatten.length := by
  induction hfills with
  | nil => simp at hdynamic
  | @cons s piece slots pieces hpiece _ ih =>
    rw [List.flatten_cons, List.length_append]
    obtain ⟨t, ht, htag⟩ := hdynamic
    rcases List.mem_cons.mp ht with rfl | ht
    · obtain ⟨m, content, rfl, -⟩ := (Slot.fills_of_dynamic htag).mp hpiece
      rw [List.length_cons]
      omega
    · have hrest := ih ⟨t, ht, htag⟩
      omega

end

namespace Layout

variable {l : Layout}

/-- A record has no bytes exactly where its layout occupies none. -/
lemma consumed_eq_zero_iff (hl : l.WellFormed) {buffer : Array UInt8} {values : List Value}
    {consumed : ℕ} (h : l.unpackFront buffer = .ok (values, consumed)) :
    consumed = 0 ↔ l.size = 0 ∧ l.dynamic = false := by
  obtain ⟨pieces, -, -, hfills, -, rfl, -⟩ := (unpackFront_eq_ok_iff hl).mp h
  have hstatic := staticSize_le_of_fills hfills hl.proper
  rw [← hl.size_eq] at hstatic
  constructor
  · intro hzero
    refine ⟨by omega, hl.static_iff.mpr ?_⟩
    intro s hs hdynamic
    have hpos := length_pos_of_dynamic hfills ⟨s, hs, hdynamic⟩
    omega
  · rintro ⟨hsize, hdynamic⟩
    rw [length_flatten_of_static hfills (hl.static_iff.mp hdynamic), ← hl.size_eq, hsize]

/-- A record of a layout that occupies bytes is not empty. -/
lemma size_pos_of_unpack (hl : l.WellFormed) (hoccupied : 0 < l.size ∨ l.dynamic = true)
    {bytes : Array UInt8} {values : List Value} (h : l.unpack bytes = .ok values) :
    0 < bytes.size := by
  apply Nat.pos_of_ne_zero
  intro hzero
  have hfront := (unpack_eq_ok_iff_unpackFront hl).mp h
  obtain ⟨hsize, hstatic⟩ := (consumed_eq_zero_iff hl hfront).mp hzero
  rcases hoccupied with hpos | hdynamic
  · omega
  · rw [hstatic] at hdynamic
    cases hdynamic

/-- A record that fills a buffer is read in front of anything else. -/
lemma unpackFront_of_unpack (hl : l.WellFormed) {bytes buffer : Array UInt8} {values : List Value}
    (h : l.unpack bytes = .ok values) {rest : List UInt8}
    (hbuffer : buffer.toList = bytes.toList ++ rest) :
    l.unpackFront buffer = .ok (values, bytes.size) := by
  obtain ⟨pieces, hbytes, hfills, rfl, hle⟩ := (unpack_eq_ok_iff hl).mp h
  have hsize : bytes.size = pieces.flatten.length := by
    rw [← Array.length_toList, hbytes]
  refine (unpackFront_eq_ok_iff hl).mpr ⟨pieces, rest, ?_, hfills, rfl, hsize, hle⟩
  rw [hbuffer, hbytes]

end Layout

/-! ## The stream -/

namespace RecordStream

variable {l : Layout}

/-- A stream that has bytes yields what the reader says of their front. -/
lemma next_of_bytes {buffer : Array UInt8} (hbytes : buffer ≠ #[]) :
    (⟨l, buffer, false⟩ : RecordStream).next =
      match l.unpackFront buffer with
      | .error fault => (some (.error fault), ⟨l, buffer, true⟩)
      | .ok (values, consumed) =>
        if consumed = 0 then (none, ⟨l, buffer, true⟩)
        else (some (.ok values), ⟨l, buffer.extract consumed buffer.size, false⟩) := by
  have hgoing : ¬ (false = true ∨ buffer.isEmpty = true) := by simpa using hbytes
  refine (if_neg hgoing).trans ?_
  rcases l.unpackFront buffer with fault | ⟨values, consumed⟩ <;> rfl

/-- The stream yields a record that stands in front, and goes on behind it. -/
lemma next_of_unpack (hl : l.WellFormed) (hoccupied : 0 < l.size ∨ l.dynamic = true)
    {bytes buffer : Array UInt8} {values : List Value} (h : l.unpack bytes = .ok values)
    {rest : List UInt8} (hbuffer : buffer.toList = bytes.toList ++ rest) :
    (⟨l, buffer, false⟩ : RecordStream).next = (some (.ok values), ⟨l, rest.toArray, false⟩) := by
  have hpos := Layout.size_pos_of_unpack hl hoccupied h
  have hsize : buffer.size = bytes.size + rest.length := by
    rw [← Array.length_toList, hbuffer, List.length_append, Array.length_toList]
  have hbytes : buffer ≠ #[] := by
    rw [Ne, ← Array.size_eq_zero_iff]
    omega
  have hbehind : buffer.extract bytes.size buffer.size = rest.toArray := by
    apply Array.toList_inj.mp
    rw [← Array.length_toList]
    exact toList_extract_behind hbuffer
  have hfront := Layout.unpackFront_of_unpack hl h hbuffer
  simp only [next_of_bytes hbytes, hfront, if_neg hpos.ne', hbehind]

/-- **A stream over records reads each of them**, by induction on the records that are left. -/
theorem drain_of_records (hl : l.WellFormed) (hoccupied : 0 < l.size ∨ l.dynamic = true)
    {chunks : List (Array UInt8)} {records : List (List Value)}
    (hrecords : List.Forall₂ (fun bytes values => l.unpack bytes = .ok values) chunks records)
    {buffer : Array UInt8} (hbuffer : buffer.toList = chunks.flatMap Array.toList) :
    (⟨l, buffer, false⟩ : RecordStream).drain = (records.map .ok, ⟨l, #[], false⟩) := by
  induction hrecords generalizing buffer with
  | nil =>
    obtain rfl : buffer = #[] := Array.toList_inj.mp hbuffer
    apply drain_of_next_none
    rfl
  | @cons bytes values chunks records hunpack _ ih =>
    rw [List.flatMap_cons] at hbuffer
    have hrest : (⟨l, (chunks.flatMap Array.toList).toArray, false⟩ : RecordStream).drain =
        (records.map .ok, ⟨l, #[], false⟩) := ih rfl
    rw [drain_of_next_some (next_of_unpack hl hoccupied hunpack hbuffer), hrest, List.map_cons]

end RecordStream

/-! ## A run read back -/

namespace Layout

variable {l : Layout}

/-- The records that steps have packed are read back one by one. -/
lemma exists_records (hl : l.WellFormed) {steps : List PackStep}
    (hsteps : ∀ step ∈ steps, step.layout = l) {chunks : List (Array UInt8)}
    (hchunks : List.Forall₂ PackStep.Packs steps chunks) :
    ∃ records, List.Forall₂ (fun bytes record => l.unpack bytes = .ok record) chunks records ∧
      records.map (List.map some) =
        steps.map fun step => List.zipWith Slot.normal? l.carriers step.values := by
  induction hchunks with
  | nil => exact ⟨[], .nil, rfl⟩
  | @cons step bytes steps chunks hpacks _ ih =>
    obtain ⟨rfl, hsteps⟩ := List.forall_mem_cons.mp hsteps
    obtain ⟨record, hunpack, hnormal⟩ := exists_unpack_of_packWith hl hpacks
    obtain ⟨records, hrecords, hnormals⟩ := ih hsteps
    refine ⟨record :: records, .cons hunpack hrecords, ?_⟩
    rw [List.map_cons, List.map_cons, hnormal, hnormals]

/-- **A stream reads back a run.**  The buffer that a run of steps has filled consists of the
records of the steps that succeeded.  The stream of its records yields one record for each of them,
in the order of the steps: what the bytes of that step are unpacked to, which are the normal forms
of the values that were packed.  Then all bytes are used up, and no fault has occurred. -/
theorem drain_runAll (room : Room) (format : String) (l : Layout)
    (hl : compileWithin room format = .ok l) (hoccupied : 0 < l.size ∨ l.dynamic = true)
    (steps : List PackStep) (hsteps : ∀ step ∈ steps, step.layout = l) :
    ∃ chunks records,
      List.Forall₂ PackStep.Packs
        (PackStep.succeeded steps (PackStep.runAll #[] steps).2) chunks ∧
      (PackStep.runAll #[] steps).1.toList = chunks.flatMap Array.toList ∧
      List.Forall₂ (fun bytes record => l.unpack bytes = .ok record) chunks records ∧
      records.map (List.map some) =
        (PackStep.succeeded steps (PackStep.runAll #[] steps).2).map
          (fun step => List.zipWith Slot.normal? l.carriers step.values) ∧
      (l.records (PackStep.runAll #[] steps).1).drain = (records.map .ok, ⟨l, #[], false⟩) := by
  have hwf := wellFormed_of_compile hl
  have hlayouts : ∀ step ∈ steps, step.layout.WellFormed := by
    intro step hstep
    rw [hsteps step hstep]
    exact hwf
  obtain ⟨chunks, hchunks, hbuffer⟩ := PackStep.buffer_of_runAll hlayouts #[]
  have hsucceeded : ∀ step ∈ PackStep.succeeded steps (PackStep.runAll #[] steps).2,
      step.layout = l := by
    intro step hstep
    exact hsteps step (PackStep.mem_of_mem_succeeded hstep)
  obtain ⟨records, hrecords, hnormals⟩ := exists_records hwf hsucceeded hchunks
  refine ⟨chunks, records, hchunks, hbuffer, hrecords, hnormals, ?_⟩
  exact RecordStream.drain_of_records hwf hoccupied hrecords hbuffer

/-- Two of four steps fail, one for a missing value and one under a strict policy; the records of
the others are read back, and a wrapped integer shows what it has become. -/
theorem drain_runAll_with_faults :
    ((ofFields "B S" [⟨.uint8, 1⟩, ⟨.dynamic, 1⟩]).records #[44, 1, 7, 5, 2, 8, 9]).drain =
      ([.ok [.uint 44, .bytes [7]], .ok [.uint 5, .bytes [8, 9]]],
        ⟨ofFields "B S" [⟨.uint8, 1⟩, ⟨.dynamic, 1⟩], #[], false⟩) := by
  obtain ⟨chunks, records, -, -, -, hnormals, hdrain⟩ :=
    drain_runAll .standard "B S" (ofFields "B S" [⟨.uint8, 1⟩, ⟨.dynamic, 1⟩]) rfl
      (Or.inl (by decide))
      [⟨ofFields "B S" [⟨.uint8, 1⟩, ⟨.dynamic, 1⟩], .standard, [.int 300, .bytes [7]]⟩,
        ⟨ofFields "B S" [⟨.uint8, 1⟩, ⟨.dynamic, 1⟩], .standard, [.int 3]⟩,
        ⟨ofFields "B S" [⟨.uint8, 1⟩, ⟨.dynamic, 1⟩], .strict, [.int 300, .bytes [7]]⟩,
        ⟨ofFields "B S" [⟨.uint8, 1⟩, ⟨.dynamic, 1⟩], .strict, [.uint 5, .bytes [8, 9]]⟩]
      (by simp)
  -- Evaluation finds the steps that succeed, and with them the values that come back.
  have hvalues : records.map (List.map some) =
      [[.uint 44, .bytes [7]], [.uint 5, .bytes [8, 9]]].map (List.map some) := hnormals
  obtain rfl := (Option.some_injective Value).list_map.list_map hvalues
  exact hdrain

end Layout

end PackedRecord
