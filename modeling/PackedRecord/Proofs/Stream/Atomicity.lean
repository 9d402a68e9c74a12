import Mathlib
import PackedRecord.Proofs.Stream.Appending
import PackedRecord.Proofs.Wire.Decision

/-!
# Steps by themselves

A step of a run adds a record to a buffer or leaves the buffer alone, and which of the two it does
has little to do with the buffer.  The layout, the policy and the values of the step decide what its
record is and whether there is one; of the buffer only the length is ever looked at, to find out
whether it still has a size with the record (`Layout.packInto_of_full`).  Where it has, the step
answers what it would answer by itself and adds the bytes that it would have by itself
(`Layout.packInto_eq_alone`).

In a run the buffer of a step is the one that the steps before have left (`PackStep.runAll_append`).
So the account of a single step is an account of every step of every run, whatever stood in the
buffer first and whichever of the steps before have failed (`PackStep.runAll_atomic`).
-/

namespace PackedRecord

/-- Which fault the writer meets is a matter of the values, not of the buffer it writes to. -/
lemma Writer.fault_of_run (policy : Policy) (w w' : Writer) (fields : List (Slot × Value)) :
    (w.run policy fields).2 = (w'.run policy fields).2 := by
  induction fields generalizing w w' with
  | nil => rfl
  | cons f fields ih =>
    obtain ⟨s, v⟩ := f
    rw [run, run]
    split
    · rfl
    · exact ih _ _

/-! ## One step -/

namespace Layout

variable {l : Layout} {policy : Policy} {buffer : Array UInt8} {values : List Value}

/-- A buffer that would have no size with the record stays as it is. -/
lemma packInto_of_full {total : ℕ} (hsize : l.packedSizeWith policy values = .ok total)
    (hfull : maxSize < buffer.size + total) :
    l.packInto policy buffer values = (buffer, .error .sizeOverflow) := by
  have hadd : addSize? buffer.size total = none := if_neg (not_le.mpr hfull)
  simp only [packInto, hsize, hadd]

/-- Where the buffer has a size with the record, a step answers as it does on an empty one. -/
lemma answer_of_fits
    (hfits : ∀ total, l.packedSizeWith policy values = .ok total → buffer.size + total ≤ maxSize) :
    (l.packInto policy buffer values).2 = (l.packInto policy #[] values).2 := by
  cases hsize : l.packedSizeWith policy values with
  | error fault => simp only [packInto, hsize]
  | ok total =>
    have hle := hfits total hsize
    have halone : (#[] : Array UInt8).size + total ≤ maxSize := by
      rw [List.size_toArray, List.length_nil]
      omega
    rw [packInto_of_size hsize hle, packInto_of_size hsize halone]
    congr 1
    exact Writer.fault_of_run policy _ _ _

/-- **A step does to a buffer what it does by itself**: it leaves the buffer as it is, or adds the
bytes of the record. -/
theorem packInto_eq_alone (hl : l.WellFormed)
    (hfits : ∀ total, l.packedSizeWith policy values = .ok total → buffer.size + total ≤ maxSize) :
    l.packInto policy buffer values =
      match l.packWith policy values with
      | .error fault => (buffer, .error fault)
      | .ok bytes => (buffer ++ bytes, .ok bytes.size) := by
  have hanswer := answer_of_fits hfits
  rcases hpack : l.packInto policy buffer values with ⟨after, fault | n⟩
  · obtain rfl := buffer_of_packInto_error hpack
    rcases halone : l.packInto policy #[] values with ⟨bytes, other | n⟩
    · rw [hpack, halone] at hanswer
      obtain rfl : fault = other := Except.error.inj hanswer
      rw [packWith, halone]
    · rw [hpack, halone] at hanswer
      cases hanswer
  · obtain ⟨bytes, hbytes, rfl, rfl⟩ := buffer_of_packInto_ok hl hpack
    rw [hbytes]

end Layout

/-! ## Every step of a run -/

namespace PackStep

/-- Steps behind others go on with the buffer that these have left. -/
lemma runAll_append (buffer : Array UInt8) (steps more : List PackStep) :
    runAll buffer (steps ++ more) =
      ((runAll (runAll buffer steps).1 more).1,
        (runAll buffer steps).2 ++ (runAll (runAll buffer steps).1 more).2) := by
  induction steps generalizing buffer with
  | nil => rfl
  | cons step steps ih => rw [List.cons_append, runAll, ih, runAll, List.cons_append]

lemma length_runAll (buffer : Array UInt8) (steps : List PackStep) :
    (runAll buffer steps).2.length = steps.length := by
  induction steps generalizing buffer with
  | nil => rfl
  | cons step steps ih => rw [runAll, List.length_cons, ih, List.length_cons]

/-- **Every step of a run is atomic, and stands for itself.**  A step that fails leaves the buffer as
the steps before it have left it.  A step that succeeds adds the bytes that its record has by itself,
and answers their number.  And unless the buffer would be too long with the record, the step answers
what packing the record by itself answers, whatever is in the buffer. -/
theorem runAll_atomic (buffer : Array UInt8) (before : List PackStep) (step : PackStep)
    (behind : List PackStep) (room : Room) (format : String)
    (hl : Layout.compileWithin room format = .ok step.layout) :
    ∃ answer, (runAll buffer (before ++ step :: behind)).2[before.length]? = some answer ∧
      (∀ fault, answer = .error fault →
        (runAll buffer (before ++ [step])).1 = (runAll buffer before).1) ∧
      (∀ n, answer = .ok n → ∃ bytes, step.Packs bytes ∧ n = bytes.size ∧
        (runAll buffer (before ++ [step])).1 = (runAll buffer before).1 ++ bytes) ∧
      ((∀ total, step.layout.packedSizeWith step.policy step.values = .ok total →
          (runAll buffer before).1.size + total ≤ maxSize) →
        answer = (step.layout.packWith step.policy step.values).map Array.size) ∧
      ∀ total, step.layout.packedSizeWith step.policy step.values = .ok total →
        maxSize < (runAll buffer before).1.size + total → answer = .error .sizeOverflow := by
  have hwf := Layout.wellFormed_of_compile hl
  have hlast : (runAll buffer (before ++ [step])).1 =
      (step.layout.packInto step.policy (runAll buffer before).1 step.values).1 := by
    rw [runAll_append]
    rfl
  refine ⟨(step.layout.packInto step.policy (runAll buffer before).1 step.values).2,
    ?_, ?_, ?_, ?_, ?_⟩
  · rw [runAll_append, ← length_runAll buffer before, List.getElem?_append_right le_rfl,
      Nat.sub_self]
    rfl
  · intro fault hfault
    rw [hlast]
    exact Layout.buffer_of_packInto_error (Prod.ext rfl hfault)
  · intro n hn
    obtain ⟨bytes, hbytes, hbuffer, hsize⟩ :=
      Layout.buffer_of_packInto_ok hwf (Prod.ext rfl hn)
    exact ⟨bytes, hbytes, hsize, hlast.trans hbuffer⟩
  · intro hfits
    rw [Layout.packInto_eq_alone hwf hfits]
    cases step.layout.packWith step.policy step.values <;> rfl
  · intro total hsize hfull
    rw [Layout.packInto_of_full hsize hfull]

/-- A step whose last value is refused, when two fields are written already, between two that
succeed. -/
theorem runAll_atomic_amid :
    (runAll #[255]
        ([⟨.ofFields "B h B" [⟨.uint8, 1⟩, ⟨.int16, 1⟩, ⟨.uint8, 1⟩], .strict,
            [.uint 1, .int 2, .uint 3]⟩] ++
          [⟨.ofFields "B h B" [⟨.uint8, 1⟩, ⟨.int16, 1⟩, ⟨.uint8, 1⟩], .strict,
            [.uint 4, .int 5, .uint 300]⟩])).1 = #[255, 1, 2, 0, 3] ∧
      ((Layout.ofFields "B h B" [⟨.uint8, 1⟩, ⟨.int16, 1⟩, ⟨.uint8, 1⟩]).packWith .strict
        [.uint 4, .int 5, .uint 300]).map Array.size =
          .error (.outOfRange .uint8 300 0 255) := by
  obtain ⟨answer, hanswer, hfailed, -, halone, -⟩ :=
    runAll_atomic #[255]
      [⟨.ofFields "B h B" [⟨.uint8, 1⟩, ⟨.int16, 1⟩, ⟨.uint8, 1⟩], .strict,
        [.uint 1, .int 2, .uint 3]⟩]
      ⟨.ofFields "B h B" [⟨.uint8, 1⟩, ⟨.int16, 1⟩, ⟨.uint8, 1⟩], .strict,
        [.uint 4, .int 5, .uint 300]⟩
      [⟨.ofFields "B h B" [⟨.uint8, 1⟩, ⟨.int16, 1⟩, ⟨.uint8, 1⟩], .standard,
        [.uint 4, .int 5, .uint 300]⟩]
      .standard "B h B" rfl
  have hfault : answer = .error (.outOfRange .uint8 300 0 255) :=
    Option.some.inj (hanswer.symm.trans (by decide +kernel))
  have hbuffer := (hfailed _ hfault).trans
    (show _ = #[255, 1, 2, 0, 3] by decide +kernel)
  refine ⟨hbuffer, (halone ?_).symm.trans hfault⟩
  intro total hsize
  obtain rfl : 4 = total := Except.ok.inj hsize
  decide +kernel

end PackStep

end PackedRecord
