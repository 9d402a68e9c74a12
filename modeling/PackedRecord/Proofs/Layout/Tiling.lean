import Mathlib
import PackedRecord.Proofs.Format.Acceptance

/-!
# Compiled layouts tile their static region

The engines compute with the offsets, sizes and counts of a layout and check none of them again.
What they rely on is collected in `Layout.Tiling`: the slots cover the static region byte by byte,
without a gap and without an overlap, no sum or product on the way is larger than a size can be, and
the counts of the layout are those of its slots.

All offsets come from one rule.  In a row of slots each stands behind the static bytes of those
before it (`Tiled.offset_eq`), and everything about neighbours, ends and bounds is read off there.
That compiled slots stand in such a row is known from the compiler (`wellFormed_of_compile`).
-/

namespace PackedRecord

/-! ## Offsets in a row -/

@[simp] lemma staticSize_append (ss ts : List Slot) :
    staticSize (ss ++ ts) = staticSize ss + staticSize ts := by
  simp [staticSize]

/-- A byte of the static region is one of a slot. -/
def Slot.Covers (s : Slot) (p : ℕ) : Prop := s.offset ≤ p ∧ p < s.offset + s.size

namespace Tiled

variable {offset k j p : ℕ} {slots : List Slot} {s t : Slot}

/-- A slot stands behind the static bytes of all slots before it. -/
lemma offset_eq (h : Tiled offset slots) (hs : slots[k]? = some s) :
    s.offset = offset + staticSize (slots.take k) := by
  induction slots generalizing offset k with
  | nil => cases hs
  | cons first slots ih =>
    obtain ⟨hfirst, hslots⟩ := h
    cases k with
    | zero =>
      obtain rfl := Option.some.inj hs
      exact hfirst
    | succ k =>
      rw [List.take_succ_cons, staticSize_cons, ← Nat.add_assoc]
      exact ih hslots hs

/-- The end of a slot is where the slots up to it end. -/
lemma end_eq (h : Tiled offset slots) (hs : slots[k]? = some s) :
    s.offset + s.size = offset + staticSize (slots.take (k + 1)) := by
  obtain ⟨hk, rfl⟩ := List.getElem?_eq_some_iff.mp hs
  rw [h.offset_eq hs, List.take_succ_eq_append_getElem hk, staticSize_append, staticSize_cons,
    staticSize_nil]
  omega

lemma staticSize_take_mono (hjk : j ≤ k) :
    staticSize (slots.take j) ≤ staticSize (slots.take k) := by
  obtain ⟨n, rfl⟩ := Nat.exists_eq_add_of_le hjk
  rw [List.take_add, staticSize_append]
  exact Nat.le_add_right _ _

/-- Slots end where the region ends, or before. -/
lemma end_le (h : Tiled offset slots) (hs : s ∈ slots) :
    s.offset + s.size ≤ offset + staticSize slots := by
  obtain ⟨k, hk, rfl⟩ := List.mem_iff_getElem.mp hs
  have hle : staticSize (slots.take (k + 1)) ≤ staticSize (slots.take slots.length) :=
    staticSize_take_mono hk
  rw [List.take_length] at hle
  rw [h.end_eq (List.getElem?_eq_getElem hk)]
  exact Nat.add_le_add_left hle offset

/-- Of two slots the later one begins where the earlier one ends, or behind. -/
lemma end_le_offset (h : Tiled offset slots) (hjk : j < k) (hs : slots[j]? = some s)
    (ht : slots[k]? = some t) : s.offset + s.size ≤ t.offset := by
  rw [h.end_eq hs, h.offset_eq ht]
  exact Nat.add_le_add_left (staticSize_take_mono hjk) offset

/-- Every byte of the region is one of some slot. -/
lemma exists_covers (h : Tiled offset slots) (hlow : offset ≤ p)
    (hhigh : p < offset + staticSize slots) : ∃ (k : ℕ) (s : Slot), slots[k]? = some s ∧ s.Covers p := by
  induction slots generalizing offset with
  | nil => exact absurd hhigh (not_lt.mpr hlow)
  | cons first slots ih =>
    obtain ⟨hfirst, hslots⟩ := h
    by_cases hp : p < offset + first.size
    · exact ⟨0, first, rfl, by rwa [hfirst], by rwa [hfirst]⟩
    · rw [staticSize_cons, ← Nat.add_assoc] at hhigh
      obtain ⟨k, s, hs, hcovers⟩ := ih hslots (not_lt.mp hp) hhigh
      exact ⟨k + 1, s, hs, hcovers⟩

/-- No byte is one of two slots. -/
lemma covers_unique (h : Tiled offset slots) (hs : slots[j]? = some s) (hps : s.Covers p)
    (ht : slots[k]? = some t) (hpt : t.Covers p) : j = k := by
  obtain ⟨hslow, hshigh⟩ := hps
  obtain ⟨htlow, hthigh⟩ := hpt
  rcases lt_trichotomy j k with hjk | hjk | hkj
  · have hle := h.end_le_offset hjk hs ht
    omega
  · exact hjk
  · have hle := h.end_le_offset hkj ht hs
    omega

end Tiled

/-! ## Tilings -/

namespace Layout

/-- **The slots of a layout tile its static region exactly**, and what the layout says of itself is
what its slots say. -/
structure Tiling (l : Layout) : Prop where
  /-- The first slot stands at the beginning. -/
  first : ∀ s, l.slots[0]? = some s → s.offset = 0
  /-- Every other slot stands where the one before it ends. -/
  next : ∀ (k : ℕ) s t, l.slots[k]? = some s → l.slots[k + 1]? = some t →
    t.offset = s.offset + s.tag.width * s.count
  /-- The region ends with the last slot, and is empty without slots. -/
  last : l.size = (l.slots.getLast?.map fun s => s.offset + s.tag.width * s.count).getD 0
  /-- Every byte of the region is one of exactly one slot. -/
  covered : ∀ p < l.size, ∃! k : ℕ, ∃ s : Slot, l.slots[k]? = some s ∧ s.Covers p
  /-- No size, no offset and no end of a slot leaves the range of sizes. -/
  exact : l.size ≤ maxSize ∧ ∀ s ∈ l.slots,
    s.tag.width * s.count ≤ maxSize ∧ s.offset + s.tag.width * s.count ≤ l.size
  /-- There is a value for each slot that is no pad. -/
  arity : l.arity = (l.slots.filter fun s => s.tag.kind ≠ .pad).length ∧
    l.arity ≤ l.slots.length
  dynamic : l.dynamic = true ↔ ∃ s ∈ l.slots, s.tag = .dynamic
  /-- Only strings of fixed capacity and pads have a count of their own. -/
  one : ∀ s ∈ l.slots, s.tag.kind ≠ .fixedBytes → s.tag.kind ≠ .pascalString →
    s.tag.kind ≠ .pad → s.count = 1
  pad : ∀ s ∈ l.slots, s.tag.kind = .pad → 1 ≤ s.count

namespace WellFormed

variable {l : Layout}

/-- The end of the last slot is the end of the region. -/
lemma size_eq_last (hl : l.WellFormed) :
    l.size = (l.slots.getLast?.map fun s => s.offset + s.size).getD 0 := by
  rw [hl.size_eq]
  cases hslots : l.slots.getLast? with
  | none => rw [List.getLast?_eq_none_iff.mp hslots]; rfl
  | some s =>
    rw [List.getLast?_eq_getElem?] at hslots
    have hend := hl.tiled.end_eq hslots
    obtain ⟨hlast, -⟩ := List.getElem?_eq_some_iff.mp hslots
    rw [Nat.zero_add, Nat.sub_add_cancel (Nat.one_le_of_lt hlast), List.take_length] at hend
    exact hend.symm

lemma end_le_size (hl : l.WellFormed) {s : Slot} (hs : s ∈ l.slots) :
    s.offset + s.size ≤ l.size := by
  have hle := hl.tiled.end_le hs
  rwa [Nat.zero_add, ← hl.size_eq] at hle

lemma arity_eq_filter (hl : l.WellFormed) :
    l.arity = (l.slots.filter fun s => s.tag.kind ≠ .pad).length := by
  have hkind : ∀ s : Slot, s.tag.hasValue = decide (s.tag.kind ≠ .pad) := by
    intro s
    rw [← Bool.decide_coe s.tag.hasValue]
    exact decide_eq_decide.mpr s.tag.hasValue_iff
  rw [hl.arity_eq, carriers]
  simp only [hkind]

lemma count_eq_one (hl : l.WellFormed) {s : Slot} (hs : s ∈ l.slots)
    (hfixed : s.tag.kind ≠ .fixedBytes) (hpascal : s.tag.kind ≠ .pascalString)
    (hpad : s.tag.kind ≠ .pad) : s.count = 1 := by
  have hproper := hl.proper s hs
  unfold Field.Proper at hproper
  split at hproper
  · exact absurd ‹_› hfixed
  · exact absurd ‹_› hpascal
  · exact absurd ‹_› hpad
  · exact hproper

lemma one_le_count (hl : l.WellFormed) {s : Slot} (hs : s ∈ l.slots) (hpad : s.tag.kind = .pad) :
    1 ≤ s.count := by
  have hproper := hl.proper s hs
  unfold Field.Proper at hproper
  rw [show s.field.tag.kind = .pad from hpad] at hproper
  exact Nat.one_le_iff_ne_zero.mpr hproper

theorem tiling (hl : l.WellFormed) : l.Tiling where
  first s hs := by simpa using hl.tiled.offset_eq hs
  next k s t hs ht := by
    rw [hl.tiled.offset_eq ht]
    exact (hl.tiled.end_eq hs).symm
  last := hl.size_eq_last
  covered p hp := by
    rw [hl.size_eq] at hp
    obtain ⟨k, s, hs, hcovers⟩ := hl.tiled.exists_covers (Nat.zero_le p) (by omega)
    refine ⟨k, ⟨s, hs, hcovers⟩, ?_⟩
    rintro j ⟨t, ht, hcovers'⟩
    exact hl.tiled.covers_unique ht hcovers' hs hcovers
  exact := by
    refine ⟨hl.size_le, ?_⟩
    intro s hs
    have hle := hl.end_le_size hs
    have hsize := hl.size_le
    rw [Slot.size] at hle
    exact ⟨by omega, hle⟩
  arity := by
    refine ⟨hl.arity_eq_filter, ?_⟩
    rw [hl.arity_eq]
    exact List.length_filter_le _ _
  dynamic := by simp [hl.dynamic_eq]
  one s hs := hl.count_eq_one hs
  pad s hs := hl.one_le_count hs

end WellFormed

/-- **Every compiled layout tiles its static region exactly**, whatever the format and whatever room
there was for its slots. -/
theorem compileWithin_tiling (room : Room) (format : String) (l : Layout)
    (hl : compileWithin room format = .ok l) : l.Tiling :=
  (wellFormed_of_compile hl).tiling

/-- A region of the largest size there is, with a string and a pad of no bytes in it. -/
theorem compileWithin_tiling_largest :
    compileWithin .standard "0s 18446744073709551607x 0x S q" =
        .ok (ofFields "0s 18446744073709551607x 0x S q"
          [⟨.fixedBytes, 0⟩, ⟨.pad, 18446744073709551607⟩, ⟨.dynamic, 1⟩, ⟨.int64, 1⟩]) ∧
      (ofFields "0s 18446744073709551607x 0x S q"
        [⟨.fixedBytes, 0⟩, ⟨.pad, 18446744073709551607⟩, ⟨.dynamic, 1⟩, ⟨.int64, 1⟩]).Tiling :=
  ⟨rfl, compileWithin_tiling .standard "0s 18446744073709551607x 0x S q" _ rfl⟩

end Layout

end PackedRecord
