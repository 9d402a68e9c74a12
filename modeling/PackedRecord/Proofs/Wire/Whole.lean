import Mathlib
import PackedRecord.Proofs.Wire.Shortfall

/-!
# A whole buffer and its front

A record can be asked for as all that a buffer holds, or as what stands at its front.  The two
readings share everything but their attitude to the number of bytes: the first insists on it, and
for a layout without dynamic strings even before it looks at the buffer; the second reports it.

A static layout leaves nothing to the bytes.  Any buffer of the right size falls into pieces
(`exists_fills_of_static`), so that such a layout unpacks every buffer of its size, no field of it
can run out of bytes, and the size is all that is ever wrong (`Layout.unpack_of_static`).  A dynamic
layout decides with every length byte where its record ends: before the end of the buffer, behind
it, or there (`Layout.unpack_of_dynamic`).
-/

namespace PackedRecord

/-! ## Static layouts -/

/-- Bytes of the right number fall into pieces, if no field decides the length of its own. -/
lemma exists_fills_of_static {slots : List Slot} (hstatic : ∀ s ∈ slots, s.tag ≠ .dynamic)
    {bytes : List UInt8} (hlength : bytes.length = staticSize slots) :
    ∃ pieces, bytes = pieces.flatten ∧ List.Forall₂ Slot.Fills slots pieces := by
  induction slots generalizing bytes with
  | nil =>
    obtain rfl := List.length_eq_zero_iff.mp hlength
    exact ⟨[], rfl, .nil⟩
  | cons s slots ih =>
    obtain ⟨hs, hslots⟩ := List.forall_mem_cons.mp hstatic
    rw [staticSize_cons] at hlength
    have hbehind : (bytes.drop s.size).length = staticSize slots := by
      rw [List.length_drop]
      omega
    obtain ⟨pieces, hpieces, hfills⟩ := ih hslots hbehind
    have hpiece : s.Fills (bytes.take s.size) := by
      rw [Slot.fills_of_not_dynamic hs, List.length_take]
      omega
    refine ⟨bytes.take s.size :: pieces, ?_, .cons hpiece hfills⟩
    rw [List.flatten_cons, ← hpieces, List.take_append_drop]

namespace Layout

variable {l : Layout} {buffer : Array UInt8}

/-- **A static layout unpacks every buffer of its size**, and of the others says that their size is
wrong. -/
theorem unpack_of_static (hl : l.WellFormed) (hstatic : l.dynamic = false) :
    (buffer.size = l.size → ∃ values, l.unpack buffer = .ok values) ∧
      (buffer.size ≠ l.size → l.unpack buffer = .error (.sizeMismatch l.size buffer.size)) := by
  constructor
  · intro hsize
    have hlength : buffer.toList.length = staticSize l.slots := by
      rw [Array.length_toList, hsize, hl.size_eq]
    obtain ⟨pieces, hbuffer, hfills⟩ :=
      exists_fills_of_static (hl.static_iff.mp hstatic) hlength
    exact ⟨_, (unpack_eq_ok_iff hl).mpr ⟨pieces, hbuffer, hfills, rfl, hsize ▸ hl.size_le⟩⟩
  · intro hsize
    rw [unpack, if_pos ⟨hstatic, hsize⟩]

/-! ## Dynamic layouts -/

/-- **A dynamic layout passes on what is wrong at the front**, and complains of bytes behind the
record only where there is one. -/
theorem unpack_of_dynamic (hdynamic : l.dynamic = true) :
    (∀ fault, l.unpackFront buffer = .error fault → l.unpack buffer = .error fault) ∧
      ∀ values consumed, l.unpackFront buffer = .ok (values, consumed) →
        consumed ≠ buffer.size →
          consumed < buffer.size ∧
            l.unpack buffer = .error (.sizeMismatch consumed buffer.size) := by
  have hgate : ¬ (l.dynamic = false ∧ buffer.size ≠ l.size) := by simp [hdynamic]
  constructor
  · intro fault hfront
    simp only [unpack, if_neg hgate, hfront]
  · intro values consumed hfront hne
    refine ⟨lt_of_le_of_ne (consumed_le_size hfront) hne, ?_⟩
    simp only [unpack, if_neg hgate, hfront, if_pos hne]

/-! ## The two readings -/

/-- **The two readings agree.**  A whole buffer is unpacked to the values that are read at its front
if that reading takes all of its bytes, and only then.  Otherwise it says of a static layout that
the size of the buffer is not the size of the layout, and of a dynamic one what the reading at the
front says, or, where that has come to an end, that bytes are left. -/
theorem unpack_iff_front_is_whole (room : Room) (format : String) (l : Layout)
    (hl : compileWithin room format = .ok l) (buffer : Array UInt8)
    (hbuffer : buffer.size < 2 ^ 63) :
    (∀ values, l.unpack buffer = .ok values ↔ l.unpackFront buffer = .ok (values, buffer.size)) ∧
      (l.dynamic = false →
        (buffer.size = l.size → ∃ values, l.unpack buffer = .ok values) ∧
          (buffer.size ≠ l.size →
            l.unpack buffer = .error (.sizeMismatch l.size buffer.size))) ∧
      (l.dynamic = true →
        (∀ fault, l.unpackFront buffer = .error fault →
          l.unpack buffer = .error fault ∧
            ∃ needed, fault = .truncated needed buffer.size ∧ buffer.size < needed) ∧
          ∀ values consumed, l.unpackFront buffer = .ok (values, consumed) →
            consumed ≠ buffer.size →
              consumed < buffer.size ∧
                l.unpack buffer = .error (.sizeMismatch consumed buffer.size)) := by
  have hwf := wellFormed_of_compile hl
  refine ⟨fun values => unpack_eq_ok_iff_unpackFront hwf, unpack_of_static hwf, ?_⟩
  intro hdynamic
  obtain ⟨hshort, hlong⟩ := @unpack_of_dynamic l buffer hdynamic
  refine ⟨?_, hlong⟩
  intro fault hfault
  have hbelow : buffer.size < maxSize := hbuffer.trans (by decide)
  obtain ⟨needed, hneeded, hmissing, -⟩ := asks_of_unpackFront hwf hbelow hfault
  exact ⟨hshort fault hfault, needed, hneeded, hmissing⟩

/-- A string that ends before the buffer, at its end, and behind it; and a static layout that is
given too much. -/
theorem unpack_iff_front_is_whole_by_length :
    (ofFields "B S" [⟨.uint8, 1⟩, ⟨.dynamic, 1⟩]).unpack #[7, 1, 97, 98] =
        .error (.sizeMismatch 3 4) ∧
      (ofFields "B S" [⟨.uint8, 1⟩, ⟨.dynamic, 1⟩]).unpack #[7, 2, 97, 98] =
        .ok [.uint 7, .bytes [97, 98]] ∧
      (ofFields "B S" [⟨.uint8, 1⟩, ⟨.dynamic, 1⟩]).unpack #[7, 5, 97, 98] =
        .error (.truncated 7 4) ∧
      (ofFields "B 2x" [⟨.uint8, 1⟩, ⟨.pad, 2⟩]).unpack #[7, 1, 97, 98] =
        .error (.sizeMismatch 3 4) := by
  have hl : compileWithin .standard "B S" = .ok (ofFields "B S" [⟨.uint8, 1⟩, ⟨.dynamic, 1⟩]) := rfl
  have hstatic : compileWithin .standard "B 2x" = .ok (ofFields "B 2x" [⟨.uint8, 1⟩, ⟨.pad, 2⟩]) :=
    rfl
  refine ⟨?_, ?_, ?_, ?_⟩
  · exact (((unpack_iff_front_is_whole .standard "B S" _ hl _ (by decide)).2.2 rfl).2
      [.uint 7, .bytes [97]] 3 rfl (by decide)).2
  · exact ((unpack_iff_front_is_whole .standard "B S" _ hl _ (by decide)).1 _).mpr rfl
  · exact (((unpack_iff_front_is_whole .standard "B S" _ hl _ (by decide)).2.2 rfl).1 _ rfl).1
  · exact ((unpack_iff_front_is_whole .standard "B 2x" _ hstatic _ (by decide)).2.1 rfl).2
      (by decide)

end Layout

end PackedRecord
