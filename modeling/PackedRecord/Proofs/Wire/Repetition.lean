import Mathlib
import PackedRecord.Proofs.Format.Repetition
import PackedRecord.Proofs.Wire.ReaderBounds

/-!
# Repeated fields are interchangeable

A tag with a count and the tag written out compile to the same fields, but for pads: a count gathers
them in one field, and written out they are as many fields of one byte.  Nobody who packs or unpacks
can tell the difference.  Packing never sees a pad, only what it does to the offsets of the fields
behind it.  Unpacking does: it checks that the place of each field is a size, that of a pad as well,
and of many pads some may be beyond the largest size where the one in front of them is not.  But
then so is whatever follows, field or end of the record, and the fault is the same.

This is the induction of `Reader.run_pads`: whatever pads a reader passes over, and whether it stops
at one of them, in the end nothing counts but the bytes that they take together.
-/

namespace PackedRecord

/-! ## Layouts that cannot be told apart -/

namespace RecordStream

variable {s : RecordStream} {m : Layout}

/-- A stream goes on alike with a layout that reads alike. -/
lemma next_with (h : ∀ buffer, s.layout.unpackFront buffer = m.unpackFront buffer) :
    ({ s with layout := m } : RecordStream).next =
      (s.next.1, { s.next.2 with layout := m }) := by
  unfold next
  simp only [← h]
  split
  · rfl
  · split
    · rfl
    · split <;> rfl

lemma after_with (h : ∀ buffer, s.layout.unpackFront buffer = m.unpackFront buffer) (n : ℕ) :
    ({ s with layout := m } : RecordStream).after n = { s.after n with layout := m } := by
  induction n generalizing s with
  | zero => rfl
  | succ n ih =>
    have hnext : ∀ buffer, s.next.2.layout.unpackFront buffer = m.unpackFront buffer := by
      rw [s.next_le.1]
      exact h
    rw [after, next_with h, after, ih hnext]

end RecordStream

namespace Layout

variable {l m : Layout}

/-- Two layouts answer alike to whatever is packed, measured or unpacked with them, with records and
with faults. -/
structure Interchangeable (l m : Layout) : Prop where
  size : l.size = m.size
  arity : l.arity = m.arity
  dynamic : l.dynamic = m.dynamic
  packedSizeWith : ∀ policy values, l.packedSizeWith policy values = m.packedSizeWith policy values
  packInto : ∀ policy buffer values,
    l.packInto policy buffer values = m.packInto policy buffer values
  packWith : ∀ policy values, l.packWith policy values = m.packWith policy values
  unpackFront : ∀ buffer, l.unpackFront buffer = m.unpackFront buffer
  unpack : ∀ buffer, l.unpack buffer = m.unpack buffer
  /-- The streams over a buffer yield the same at each call. -/
  records : ∀ buffer n, ((l.records buffer).after n).next.1 = ((m.records buffer).after n).next.1

/-- What there is to compare: the fields that take a value, and reading at the front. -/
theorem interchangeable_of_carriers (hsize : l.size = m.size) (harity : l.arity = m.arity)
    (hdynamic : l.dynamic = m.dynamic) (hcarriers : l.carriers = m.carriers)
    (hfront : ∀ buffer, l.unpackFront buffer = m.unpackFront buffer) : l.Interchangeable m := by
  have hpacked : ∀ policy values,
      l.packedSizeWith policy values = m.packedSizeWith policy values := by
    intro policy values
    simp only [packedSizeWith, assign, hsize, harity, hdynamic, hcarriers]
  have hpack : ∀ policy buffer values,
      l.packInto policy buffer values = m.packInto policy buffer values := by
    intro policy buffer values
    simp only [packInto, hpacked, assign, hcarriers]
  refine ⟨hsize, harity, hdynamic, hpacked, hpack, ?_, hfront, ?_, ?_⟩
  · intro policy values
    simp only [packWith, hpack]
  · intro buffer
    simp only [unpack, hsize, hdynamic, hfront]
  · intro buffer n
    have hstream : m.records buffer = { l.records buffer with layout := m } := rfl
    obtain ⟨hlayout, -⟩ := (l.records buffer).after_le n
    have hafter : ∀ buffer', ((l.records buffer).after n).layout.unpackFront buffer' =
        m.unpackFront buffer' := by
      rw [hlayout]
      exact hfront
    rw [hstream, RecordStream.after_with (s := l.records buffer) (m := m) hfront,
      RecordStream.next_with hafter]

end Layout

/-! ## Passing over pads -/

namespace Reader

variable {buffer : Array UInt8} {r : Reader} {pads fs : List Field} {offset : ℕ}

/-- Checks that a record with `size` static bytes ends in the buffer. -/
def close (buffer : Array UInt8) (size : ℕ) (r : Reader) : Except UnpackFault (List Value × ℕ) :=
  match addSize? size r.shift with
  | none => .error (truncated buffer maxSize)
  | some consumed =>
    if buffer.size < consumed then .error (truncated buffer consumed)
    else .ok (r.values.toList, consumed)

/-- Reads the last fields of a record, which stand from `offset` on, and closes it. -/
def finish (buffer : Array UInt8) (offset : ℕ) (fs : List Field) (r : Reader) :
    Except UnpackFault (List Value × ℕ) :=
  (r.run buffer (placed offset fs)).bind (close buffer (offset + Field.total fs))

/-- **Pads are passed over.**  It does not matter how many they are and whether the reader stops at
one of them, if it would stop behind them for the same reason. -/
theorem run_pads {α : Type} {k : Reader → Except UnpackFault α} (hpads : ∀ f ∈ pads, f.tag = .pad)
    (hbeyond : maxSize < offset + Field.total pads + r.shift →
      k r = .error (truncated buffer maxSize)) :
    (r.run buffer (placed offset pads)).bind k = k r := by
  induction pads generalizing offset with
  | nil => rfl
  | cons f pads ih =>
    obtain ⟨hf, hpads⟩ := List.forall_mem_cons.mp hpads
    rw [Field.total_cons, ← Nat.add_assoc] at hbeyond
    rw [placed, run, step]
    by_cases hplace : offset + r.shift ≤ maxSize
    · simp only [addSize?, if_pos hplace, Slot.valueAt, hf, Tag.kind]
      exact ih hpads hbeyond
    · simp only [addSize?, if_neg hplace]
      exact (hbeyond (by omega)).symm

/-- Where the last fields begin beyond the largest size, or the record ends there, the fault is the
same. -/
lemma finish_of_beyond (hbeyond : maxSize < offset + r.shift) :
    finish buffer offset fs r = .error (truncated buffer maxSize) := by
  cases fs with
  | nil =>
    have hnone : addSize? offset r.shift = none := if_neg (not_le.mpr hbeyond)
    simp only [finish, placed, run, Except.bind, Field.total_nil, Nat.add_zero, close, hnone]
  | cons f fs =>
    rw [finish, placed, run_of_beyond hbeyond]
    rfl

end Reader

/-- A tag stands for fields of that tag. -/
lemma Tag.tag_of_mem_expansion {t : Tag} {count : ℕ} {f : Field} (hf : f ∈ t.expansion count) :
    f.tag = t := by
  unfold Tag.expansion at hf
  split at hf
  · split at hf
    · cases hf
    · rw [List.mem_singleton.mp hf]
  · rw [List.mem_singleton.mp hf]
  · rw [List.mem_singleton.mp hf]
  · rw [(List.mem_replicate.mp hf).2]

namespace Layout

variable {buffer : Array UInt8} {fs pads pads' gs : List Field}

lemma unpackFront_eq (l : Layout) (buffer : Array UInt8) :
    l.unpackFront buffer = (Reader.start.run buffer l.slots).bind (Reader.close buffer l.size) := by
  unfold unpackFront
  cases Reader.start.run buffer l.slots with
  | error fault => rfl
  | ok r => rfl

/-- Of pads amid other fields only their bytes matter. -/
lemma unpackFront_of_pads (f : String) (hpads : ∀ p ∈ pads, p.tag = .pad) :
    (ofFields f (fs ++ (pads ++ gs))).unpackFront buffer =
      (Reader.start.run buffer (placed 0 fs)).bind
        (Reader.finish buffer (Field.total fs + Field.total pads) gs) := by
  have hsize : (ofFields f (fs ++ (pads ++ gs))).size =
      Field.total fs + Field.total pads + Field.total gs := by
    simp [ofFields, Nat.add_assoc]
  have hslots : (ofFields f (fs ++ (pads ++ gs))).slots = placed 0 fs ++
      (placed (Field.total fs) pads ++ placed (Field.total fs + Field.total pads) gs) := by
    simp [ofFields, placed_append]
  rw [unpackFront_eq, hsize, hslots, Reader.run_append]
  cases Reader.start.run buffer (placed 0 fs) with
  | error fault => rfl
  | ok r =>
    have hpass : (r.run buffer (placed (Field.total fs) pads)).bind
        (Reader.finish buffer (Field.total fs + Field.total pads) gs) =
          Reader.finish buffer (Field.total fs + Field.total pads) gs r :=
      Reader.run_pads hpads Reader.finish_of_beyond
    simp only [Except.bind] at hpass ⊢
    rw [← hpass, Reader.run_append]
    cases r.run buffer (placed (Field.total fs) pads) <;> rfl

/-- The pads of a layout are not among the fields that take a value. -/
lemma filter_pads (offset : ℕ) (hpads : ∀ p ∈ pads, p.tag = .pad) :
    (placed offset pads).filter (fun s => s.tag.hasValue) = [] := by
  induction pads generalizing offset with
  | nil => rfl
  | cons p pads ih =>
    obtain ⟨hp, hpads⟩ := List.forall_mem_cons.mp hpads
    rw [placed, List.filter_cons_of_neg (by simp [hp, Tag.hasValue]), ih _ hpads]

lemma countP_pads (hpads : ∀ p ∈ pads, p.tag = .pad) :
    pads.countP (fun p => p.tag.hasValue) = 0 := by
  rw [List.countP_eq_zero]
  intro p hp
  simp [hpads p hp, Tag.hasValue]

lemma any_pads (hpads : ∀ p ∈ pads, p.tag = .pad) :
    (pads.any fun p => p.tag == .dynamic) = false := by
  rw [List.any_eq_false]
  intro p hp
  simp [hpads p hp]

/-- **Pads that take as many bytes are interchangeable**, wherever they stand. -/
theorem interchangeable_of_pads (f g : String) (hpads : ∀ p ∈ pads, p.tag = .pad)
    (hpads' : ∀ p ∈ pads', p.tag = .pad) (htotal : Field.total pads = Field.total pads') :
    (ofFields f (fs ++ (pads ++ gs))).Interchangeable (ofFields g (fs ++ (pads' ++ gs))) := by
  apply interchangeable_of_carriers
  · simp only [ofFields, Field.total_append, htotal]
  · simp only [ofFields, List.countP_append, countP_pads hpads, countP_pads hpads']
  · simp only [ofFields, List.any_append, any_pads hpads, any_pads hpads']
  · simp only [carriers, ofFields, placed_append, List.filter_append, filter_pads _ hpads,
      filter_pads _ hpads', htotal]
  · intro buffer
    rw [unpackFront_of_pads f hpads, unpackFront_of_pads g hpads', htotal]

/-- The text that a layout was compiled from matters to none of them. -/
lemma interchangeable_of_fields (f g : String) (fs : List Field) :
    (ofFields f fs).Interchangeable (ofFields g fs) :=
  interchangeable_of_carriers rfl rfl rfl rfl fun _ => rfl

/-! ## A count in any context -/

/-- **A repeat count means repetition**, behind any format that compiles and in front of any text
that does not begin with a `<`.  A tag behind a count, and the tag as many times, compile to layouts
that cannot be told apart, and have the same fields unless the tag is a pad; or both texts have a
fault of the same kind. -/
theorem compileWithin_repeats (room : Room) (f : String) (l : Layout)
    (hl : compileWithin room f = .ok l) (g : String)
    (hg : g.toList.find? (fun c => !Text.isBlank c) ≠ some '<') (t : Tag) (hfixed : t ≠ .fixedBytes)
    (hpascal : t ≠ .pascal) (n : ℕ) (hn : n ≤ maxSize)
    (hroom : ∀ count, compileWithin room (f ++ t.counted n ++ g) ≠ .error (.tooManyFields count))
    (hroom' : ∀ count, compileWithin room (f ++ t.spelled n ++ g) ≠
      .error (.tooManyFields count)) :
    (∃ m m', compileWithin room (f ++ t.counted n ++ g) = .ok m ∧
        compileWithin room (f ++ t.spelled n ++ g) = .ok m' ∧
        m.Interchangeable m' ∧ (t ≠ .pad → m.slots = m'.slots)) ∨
      ∃ fault fault', compileWithin room (f ++ t.counted n ++ g) = .error fault ∧
        compileWithin room (f ++ t.spelled n ++ g) = .error fault' ∧
        fault.unplaced = fault'.unplaced := by
  rcases (compileWithin_counted_spelled hl hg t hn).cases_of_room hroom hroom' with
    ⟨m, m', hm, hm', fs, gs, rfl, rfl⟩ | hfaults
  · refine Or.inl ⟨_, _, hm, hm', ?_⟩
    by_cases hpad : t = .pad
    · subst hpad
      refine ⟨interchangeable_of_pads _ _ ?_ ?_ ?_, fun hne => absurd rfl hne⟩
      · exact fun p hp => Tag.tag_of_mem_expansion hp
      · exact fun p hp => (List.mem_replicate.mp hp).2 ▸ rfl
      · rw [Tag.total_expansion, Field.total_replicate]
    · rw [Tag.expansion_of_repeated hpad hfixed hpascal]
      exact ⟨interchangeable_of_fields _ _ _, fun _ => rfl⟩
  · exact Or.inr hfaults

/-- Three bytes of pads in front of the last byte of the largest static region there is.  Behind a
string of two bytes the last of three pads is beyond the largest size, and one pad is not. -/
theorem compileWithin_repeats_largest :
    (ofFields "S18446744073709551611x3x B"
        [⟨.dynamic, 1⟩, ⟨.pad, 18446744073709551611⟩, ⟨.pad, 3⟩, ⟨.uint8, 1⟩]).Interchangeable
      (ofFields "S18446744073709551611xxxx B"
        [⟨.dynamic, 1⟩, ⟨.pad, 18446744073709551611⟩, ⟨.pad, 1⟩, ⟨.pad, 1⟩, ⟨.pad, 1⟩,
          ⟨.uint8, 1⟩]) := by
  have hcounted : compileWithin .standard ("S18446744073709551611x" ++ Tag.pad.counted 3 ++ " B") =
      .ok (ofFields "S18446744073709551611x3x B"
        [⟨.dynamic, 1⟩, ⟨.pad, 18446744073709551611⟩, ⟨.pad, 3⟩, ⟨.uint8, 1⟩]) := rfl
  have hspelled : compileWithin .standard ("S18446744073709551611x" ++ Tag.pad.spelled 3 ++ " B") =
      .ok (ofFields "S18446744073709551611xxxx B"
        [⟨.dynamic, 1⟩, ⟨.pad, 18446744073709551611⟩, ⟨.pad, 1⟩, ⟨.pad, 1⟩, ⟨.pad, 1⟩,
          ⟨.uint8, 1⟩]) := rfl
  have hrepeats := compileWithin_repeats .standard "S18446744073709551611x" _ rfl " B" (by decide)
    .pad (by decide) (by decide) 3 (by decide) (by simp [hcounted]) (by simp [hspelled])
  rw [hcounted, hspelled] at hrepeats
  rcases hrepeats with ⟨m, m', hm, hm', hinterchangeable, -⟩ | ⟨fault, fault', hfault, -⟩
  · rw [← Except.ok.inj hm, ← Except.ok.inj hm'] at hinterchangeable
    exact hinterchangeable
  · cases hfault

end Layout

end PackedRecord
