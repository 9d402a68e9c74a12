import Mathlib
import PackedRecord.Proofs.Wire.Writer

/-!
# Appending records

Records go onto the end of a buffer that may hold others, and packing either adds one record or
changes nothing.  The writer makes room before it knows whether all values can be written, so that a
fault may find the new region half filled.  What it has written is always behind the place where
the region starts (`Writer.take_run`), and cutting the region off again restores the buffer,
whatever field failed (`Layout.buffer_of_packInto_error`).  A step that succeeds appends the bytes
that the record has by itself (`Layout.buffer_of_packInto_ok`), so that neither depends on what was
there.

A run is a list of steps on one buffer, some of which may fail (`PackStep.runAll`).  By induction on
the steps, the buffer at the end holds what it held before and then the records of the steps that
succeeded, in order and with nothing between them (`PackStep.buffer_of_runAll`).
-/

namespace PackedRecord

/-! ## What stands in front is kept -/

lemma take_overwrite {buffer : Array UInt8} {position k : ℕ} (h : k ≤ position)
    (bytes : List UInt8) :
    (overwrite buffer position bytes).toList.take k = buffer.toList.take k := by
  induction bytes generalizing buffer position with
  | nil => rfl
  | cons b bytes ih =>
    rw [overwrite, ih (by omega), Array.toList_setIfInBounds, List.take_set_of_le h]

namespace Writer

/-- The writer leaves everything in front of its record as it is, also when a value is refused. -/
lemma take_run (policy : Policy) (w : Writer) (fields : List (Slot × Value)) :
    (w.run policy fields).1.buffer.toList.take w.start = w.buffer.toList.take w.start := by
  induction fields generalizing w with
  | nil => rfl
  | cons f fields ih =>
    obtain ⟨s, v⟩ := f
    rw [run]
    split
    · rfl
    · next bytes _ =>
      have hput : (w.put s bytes).buffer.toList.take w.start = w.buffer.toList.take w.start :=
        take_overwrite (Nat.le_add_right _ _) bytes
      exact (ih (w.put s bytes)).trans hput

end Writer

namespace Layout

variable {l : Layout} {policy : Policy} {buffer after : Array UInt8} {values : List Value}

/-- **A step that fails leaves the buffer as it was.** -/
theorem buffer_of_packInto_error {fault : PackFault}
    (h : l.packInto policy buffer values = (after, .error fault)) : after = buffer := by
  unfold packInto at h
  split at h
  · exact (Prod.mk.inj h).1.symm
  · next total _ =>
    simp only at h
    split at h
    · exact (Prod.mk.inj h).1.symm
    · split at h
      · next w fault' hrun =>
        rw [← (Prod.mk.inj h).1]
        have hkept := Writer.take_run policy
          (Writer.mk (buffer ++ Array.replicate total 0) buffer.size 0) (l.assign values)
        rw [hrun] at hkept
        apply Array.toList_inj.mp
        simpa using hkept
      · cases (Prod.mk.inj h).2

/-- **A step that succeeds appends the record**, as it is packed by itself. -/
theorem buffer_of_packInto_ok (hl : l.WellFormed) {n : ℕ}
    (h : l.packInto policy buffer values = (after, .ok n)) :
    ∃ bytes, l.packWith policy values = .ok bytes ∧ after = buffer ++ bytes ∧ n = bytes.size := by
  obtain ⟨harity, htakes⟩ := takes_of_packInto h
  obtain ⟨pieces, henc⟩ := exists_encodes_of_takes hl harity htakes
  rw [packInto_of_encodes hl buffer henc htakes] at h
  split at h
  · next hfits =>
    obtain ⟨rfl, hn⟩ := Prod.mk.inj h
    refine ⟨pieces.flatten.toArray, ?_, rfl, ?_⟩
    · rw [packWith_of_encodes hl henc htakes, if_pos (by omega)]
    · rw [← Except.ok.inj hn, List.size_toArray]
  · cases (Prod.mk.inj h).2

end Layout

/-! ## Runs -/

/-- A record that is to go onto the end of a buffer. -/
structure PackStep where
  layout : Layout
  policy : Policy
  values : List Value

namespace PackStep

/-- The buffer after all steps, and what each step has answered. -/
def runAll (buffer : Array UInt8) : List PackStep → Array UInt8 × List (Except PackFault ℕ)
  | [] => (buffer, [])
  | step :: steps =>
    let next := step.layout.packInto step.policy buffer step.values
    let rest := runAll next.1 steps
    (rest.1, next.2 :: rest.2)

/-- The steps that did not fail, by the answers to them. -/
def succeeded (steps : List PackStep) (answers : List (Except PackFault ℕ)) : List PackStep :=
  (steps.zip answers).filterMap fun p => if p.2.isOk then some p.1 else none

/-- The bytes that a step packs are its record. -/
def Packs (step : PackStep) (bytes : Array UInt8) : Prop :=
  step.layout.packWith step.policy step.values = .ok bytes

lemma mem_of_mem_succeeded {step : PackStep} {steps : List PackStep}
    {answers : List (Except PackFault ℕ)} (h : step ∈ succeeded steps answers) : step ∈ steps := by
  obtain ⟨p, hp, hstep⟩ := List.mem_filterMap.mp h
  split at hstep
  · rw [← Option.some.inj hstep]
    exact (List.of_mem_zip hp).1
  · cases hstep

/-- **A run appends the records of the steps that succeed**, in order and without a gap. -/
theorem buffer_of_runAll {steps : List PackStep} (hwf : ∀ step ∈ steps, step.layout.WellFormed)
    (buffer : Array UInt8) :
    ∃ chunks, List.Forall₂ Packs (succeeded steps (runAll buffer steps).2) chunks ∧
      (runAll buffer steps).1.toList = buffer.toList ++ chunks.flatMap Array.toList := by
  induction steps generalizing buffer with
  | nil => exact ⟨[], .nil, by simp [runAll]⟩
  | cons step steps ih =>
    obtain ⟨hstep, hwf⟩ := List.forall_mem_cons.mp hwf
    rw [runAll]
    rcases hpack : step.layout.packInto step.policy buffer step.values with ⟨after, fault | n⟩
    · obtain rfl := Layout.buffer_of_packInto_error hpack
      exact ih hwf _
    · obtain ⟨bytes, hbytes, rfl, -⟩ := Layout.buffer_of_packInto_ok hstep hpack
      obtain ⟨chunks, hchunks, hbuffer⟩ := ih hwf (buffer ++ bytes)
      refine ⟨bytes :: chunks, .cons hbytes hchunks, ?_⟩
      rw [hbuffer, Array.toList_append, List.flatMap_cons, List.append_assoc]

end PackStep

end PackedRecord
