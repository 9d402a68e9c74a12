import Mathlib
import PackedRecord.Proofs.Wire.Decision

/-!
# The size of a record before it is packed

The first pass can be asked for by itself, and what it answers is the size of the packed record: the
static region and, for each dynamic string, its bytes and one more.  Nothing else in the values
counts (`addDynamicSizes_zip_congr`), and the sum is exact up to the largest size, because every
string is added with a check (`faultless_strings_iff`).

The pass is the one that packing begins with.  So a size that cannot be told is a record that cannot
be packed, for the same reason (`Layout.packWith_of_no_size`), and a record that was packed has the
size that was told (`Layout.packedSizeWith_of_packWith`).  Integers have no part in it, so that the
answer is the same whatever becomes of those that do not fit.
-/

namespace PackedRecord

/-! ## Lengths of strings -/

/-- The lengths of the byte strings for the dynamic strings of a record, in order. -/
def stringLengths (fields : List (Slot × Value)) : List ℕ :=
  fields.filterMap fun f => if f.1.tag = .dynamic then f.2.bytes?.map List.length else none

/-- Bytes besides the static region are those of the strings, as many as fit one, and a length byte
for each. -/
lemma stringBytes_eq_sum (fields : List (Slot × Value)) :
    stringBytes fields =
      ((stringLengths fields).map fun n => min n maxStringLength + 1).sum := by
  induction fields with
  | nil => rfl
  | cons f fields ih =>
    obtain ⟨s, v⟩ := f
    rw [stringBytes_cons, ih]
    by_cases hs : s.tag = .dynamic
    · cases v with
      | bytes bs =>
        rw [Slot.stringSize_of_dynamic hs]
        simp [stringLengths, hs, Value.bytes?]
      | int | uint | float | bool => simp [stringLengths, hs, Slot.stringSize, Value.bytes?]
    · rw [Slot.stringSize_of_not_dynamic hs]
      simp [stringLengths, hs]

/-- A policy keeps the value of a field, if the field is a dynamic string: the value is a byte
string, and one that fits or is cut. -/
def Policy.Keeps (policy : Policy) (f : Slot × Value) : Prop :=
  f.1.tag = .dynamic →
    ∃ bs, f.2 = .bytes bs ∧ (bs.length ≤ maxStringLength ∨ policy.longStrings = .truncate)

/-- Strings that are all kept and none of them cut have their own lengths. -/
lemma stringBytes_of_reject {policy : Policy} (hpolicy : policy.longStrings = .reject)
    {fields : List (Slot × Value)} (h : ∀ f ∈ fields, policy.Keeps f) :
    stringBytes fields = ((stringLengths fields).map (· + 1)).sum := by
  rw [stringBytes_eq_sum]
  congr 1
  apply List.map_congr_left
  intro n hn
  obtain ⟨⟨s, v⟩, hf, hlength⟩ := List.mem_filterMap.mp hn
  split at hlength
  · next hs =>
    obtain ⟨bs, rfl, hkept⟩ := h _ hf hs
    obtain rfl := Option.some.inj hlength
    rcases hkept with hle | htruncate
    · rw [min_eq_left hle]
    · rw [hpolicy] at htruncate
      cases htruncate
  · cases hlength

/-! ## Where nothing is wrong with the strings -/

section

variable {policy : Policy} {running : ℕ} {fields : List (Slot × Value)}

/-- Nothing is wrong with a field exactly if its string is kept and the record has a size with
it. -/
lemma no_stringFault_iff {f : Slot × Value} (hrunning : running ≤ maxSize) :
    (∀ fault, ¬ StringFault policy running f fault) ↔
      policy.Keeps f ∧ running + f.1.stringSize f.2 ≤ maxSize := by
  obtain ⟨s, v⟩ := f
  by_cases hs : s.tag = .dynamic
  · constructor
    · intro h
      obtain ⟨bs, rfl, hkept, hfits⟩ := exists_kept_of_no_stringFault hs h
      exact ⟨fun _ => ⟨bs, rfl, hkept⟩, hfits⟩
    · rintro ⟨hkeeps, hfits⟩ fault hfault
      obtain ⟨bs, rfl, hkept⟩ := hkeeps hs
      cases hfault with
      | notBytes _ hv => cases hv
      | tooLong hpolicy hlong => exact hlong.not_kept hpolicy hkept
      | tooMuch _ _ hover => exact absurd hfits (not_le.mpr hover)
  · constructor
    · intro _
      exact ⟨fun hdynamic => absurd hdynamic hs, by rwa [Slot.stringSize_of_not_dynamic hs]⟩
    · intro _ fault hfault
      exact hs hfault.dynamic

/-- **Nothing is wrong with the strings** exactly if all of them are kept and the record has a size
with them.  By induction on the fields; the sizes on the way are no larger than the last one. -/
theorem faultless_strings_iff (hrunning : running ≤ maxSize) :
    Faultless (fun before => StringFault policy (running + stringBytes before)) fields ↔
      (∀ f ∈ fields, policy.Keeps f) ∧ running + stringBytes fields ≤ maxSize := by
  induction fields generalizing running with
  | nil => exact ⟨fun _ => ⟨by simp, hrunning⟩, fun _ => faultless_nil⟩
  | cons f fields ih =>
    obtain ⟨s, v⟩ := f
    rw [faultless_cons, List.forall_mem_cons]
    simp only [stringBytes_nil, stringBytes_cons, Nat.add_zero, ← Nat.add_assoc]
    rw [no_stringFault_iff hrunning]
    constructor
    · rintro ⟨⟨hkeeps, hfits⟩, hfields⟩
      obtain ⟨hall, htotal⟩ := (ih hfits).mp hfields
      exact ⟨⟨hkeeps, hall⟩, htotal⟩
    · rintro ⟨⟨hkeeps, hall⟩, htotal⟩
      have hfits : running + s.stringSize v ≤ maxSize := by omega
      exact ⟨⟨hkeeps, hfits⟩, (ih hfits).mpr ⟨hall, htotal⟩⟩

/-- The first pass answers a size exactly if nothing is wrong with the strings, and then it is that
of their bytes. -/
lemma addDynamicSizes_eq_ok_iff (hrunning : running ≤ maxSize) {n : ℕ} :
    addDynamicSizes policy running fields = .ok n ↔
      (∀ f ∈ fields, policy.Keeps f) ∧ n = running + stringBytes fields ∧ n ≤ maxSize := by
  constructor
  · intro h
    have hfaultless :
        Faultless (fun before => StringFault policy (running + stringBytes before)) fields := by
      rw [faultless_iff]
      intro fault hfault
      rw [addDynamicSizes_eq_error_iff.mpr hfault] at h
      cases h
    obtain ⟨hall, htotal⟩ := (faultless_strings_iff hrunning).mp hfaultless
    rw [addDynamicSizes_of_faultless hfaultless] at h
    obtain rfl := Except.ok.inj h
    exact ⟨hall, rfl, htotal⟩
  · rintro ⟨hall, rfl, htotal⟩
    exact addDynamicSizes_of_faultless ((faultless_strings_iff hrunning).mpr ⟨hall, htotal⟩)

end

/-! ## What the first pass does not look at -/

/-- Policies that differ in integers only answer the same size. -/
lemma addDynamicSizes_congr_policy {policy policy' : Policy}
    (h : policy.longStrings = policy'.longStrings) (running : ℕ)
    (fields : List (Slot × Value)) :
    addDynamicSizes policy running fields = addDynamicSizes policy' running fields := by
  have hlength : ∀ (s : Slot) bs, s.dynamicLength policy bs = s.dynamicLength policy' bs := by
    intro s bs
    simp only [Slot.dynamicLength, h]
  induction fields generalizing running with
  | nil => rfl
  | cons f fields ih => simp only [addDynamicSizes, hlength, ih]

/-- Values of which only those for dynamic strings agree have the same size. -/
lemma addDynamicSizes_zip_congr {policy : Policy} {running : ℕ} {slots : List Slot}
    {values values' : List Value} (hlength : values'.length = values.length)
    (h : ∀ (k : ℕ) s, slots[k]? = some s → s.tag = .dynamic → values'[k]? = values[k]?) :
    addDynamicSizes policy running (slots.zip values') =
      addDynamicSizes policy running (slots.zip values) := by
  induction slots generalizing running values values' with
  | nil => rfl
  | cons s slots ih =>
    cases values with
    | nil =>
      obtain rfl := List.eq_nil_of_length_eq_zero hlength
      rfl
    | cons v values =>
      obtain ⟨v', values', rfl⟩ := List.exists_cons_of_length_eq_add_one hlength
      have hrest : ∀ running, addDynamicSizes policy running (slots.zip values') =
          addDynamicSizes policy running (slots.zip values) := by
        intro running
        exact ih (Nat.succ.inj hlength) fun k t ht => h (k + 1) t ht
      simp only [List.zip_cons_cons, addDynamicSizes]
      by_cases hs : s.tag = .dynamic
      · obtain rfl := Option.some.inj (h 0 s rfl hs)
        simp only [if_pos hs, hrest]
      · simp only [if_neg hs, hrest]

/-! ## The size and the record -/

namespace Layout

variable {l : Layout} {policy : Policy} {values : List Value} {n : ℕ}

/-- The first pass answers a size exactly if there are as many values as the layout takes and all
strings are kept; it is the size of the static region with the strings, and a size at all. -/
theorem packedSizeWith_eq_ok_iff (hl : l.WellFormed) :
    l.packedSizeWith policy values = .ok n ↔
      values.length = l.arity ∧ (∀ f ∈ l.assign values, policy.Keeps f) ∧
        n = l.size + stringBytes (l.assign values) ∧ n ≤ maxSize := by
  by_cases harity : values.length = l.arity
  · rw [packedSizeWith_eq hl harity, ← assign_eq, addDynamicSizes_eq_ok_iff hl.size_le]
    simp only [harity, true_and]
  · simp [packedSizeWith, harity]

/-- A record whose size cannot be told is not packed, for the same reason. -/
lemma packWith_of_no_size {fault : PackFault} (h : l.packedSizeWith policy values = .error fault) :
    l.packWith policy values = .error fault := by
  simp only [packWith, packInto, h]

/-- A record has the size that was told. -/
lemma packedSizeWith_of_packWith (hl : l.WellFormed) {bytes : Array UInt8}
    (h : l.packWith policy values = .ok bytes) :
    l.packedSizeWith policy values = .ok bytes.size := by
  obtain ⟨pieces, henc, htakes, hle, hbytes⟩ := encodes_of_packWith hl h
  rw [packedSizeWith_of_encodes hl henc htakes, if_pos hle, ← hbytes, Array.length_toList]

lemma packedSizeWith_congr_policy {policy' : Policy}
    (h : policy.longStrings = policy'.longStrings) :
    l.packedSizeWith policy values = l.packedSizeWith policy' values := by
  simp only [packedSizeWith, addDynamicSizes_congr_policy h]

/-- **The size of a record is told exactly.**  It is told if there are as many values as the layout
takes, those for dynamic strings are byte strings of at most 255 bytes, and the static region with
these and their length bytes is no larger than a size can be; values for other fields never matter.
Where long strings are refused, a packed record has the size told, and none is packed whose size
cannot be told.  Where they are cut, a packed record has at most 255 bytes of each. -/
theorem packedSize_exact (room : Room) (format : String) (l : Layout)
    (hl : compileWithin room format = .ok l) (values : List Value) :
    (∀ n, l.packedSize values = .ok n ↔
        values.length = l.arity ∧
          (∀ f ∈ l.assign values, f.1.tag = .dynamic → ∃ bs, f.2 = .bytes bs ∧ bs.length ≤ 255) ∧
          n = l.size + ((stringLengths (l.assign values)).map (· + 1)).sum ∧ n ≤ maxSize) ∧
      (∀ values' : List Value, values'.length = values.length →
        (∀ (k : ℕ) s, l.carriers[k]? = some s → s.tag = .dynamic → values'[k]? = values[k]?) →
          l.packedSize values' = l.packedSize values) ∧
      (∀ overflow bytes, l.packWith ⟨overflow, .reject⟩ values = .ok bytes →
        l.packedSize values = .ok bytes.size) ∧
      (∀ overflow fault, l.packedSize values = .error fault →
        l.packWith ⟨overflow, .reject⟩ values = .error fault) ∧
      ∀ overflow bytes, l.packWith ⟨overflow, .truncate⟩ values = .ok bytes →
        bytes.size =
          l.size + ((stringLengths (l.assign values)).map fun n => min n 255 + 1).sum := by
  have hwf := wellFormed_of_compile hl
  have hpolicy : ∀ overflow, l.packedSize values = l.packedSizeWith ⟨overflow, .reject⟩ values :=
    fun overflow => packedSizeWith_congr_policy rfl
  refine ⟨?_, ?_, ?_, ?_, ?_⟩
  · intro n
    have hkeeps : (∀ f ∈ l.assign values, Policy.standard.Keeps f) ↔
        ∀ f ∈ l.assign values, f.1.tag = .dynamic → ∃ bs, f.2 = .bytes bs ∧ bs.length ≤ 255 := by
      simp [Policy.Keeps, Policy.standard, maxStringLength]
    rw [packedSize, packedSizeWith_eq_ok_iff hwf, hkeeps]
    refine and_congr_right fun _ => and_congr_right fun hkept => ?_
    rw [stringBytes_of_reject rfl (hkeeps.mpr hkept)]
  · intro values' hlength hagree
    simp only [packedSize, packedSizeWith, assign, hlength,
      addDynamicSizes_zip_congr hlength hagree]
  · intro overflow bytes h
    rw [hpolicy overflow]
    exact packedSizeWith_of_packWith hwf h
  · intro overflow fault h
    rw [hpolicy overflow] at h
    exact packWith_of_no_size h
  · intro overflow bytes h
    obtain ⟨-, -, hsize, -⟩ :=
      (packedSizeWith_eq_ok_iff hwf).mp (packedSizeWith_of_packWith hwf h)
    rw [hsize, stringBytes_eq_sum]
    rfl

/-- Two strings of one byte fill a record up to the largest size, and one byte more is too much for
it, told or packed; and of 300 bytes that are cut the record has 255. -/
theorem packedSize_exact_largest :
    (ofFields "18446744073709551611x 2S"
        [⟨.pad, 18446744073709551611⟩, ⟨.dynamic, 1⟩, ⟨.dynamic, 1⟩]).packedSize
        [.bytes [7], .bytes [8]] = .ok maxSize ∧
      (ofFields "18446744073709551611x 2S"
        [⟨.pad, 18446744073709551611⟩, ⟨.dynamic, 1⟩, ⟨.dynamic, 1⟩]).packWith .strict
        [.bytes [7], .bytes [8, 9]] = .error .sizeOverflow ∧
      ∀ bytes, (ofFields "h S" [⟨.int16, 1⟩, ⟨.dynamic, 1⟩]).packWith ⟨.strict, .truncate⟩
        [.int 5, .bytes (List.replicate 300 7)] = .ok bytes → bytes.size = 258 := by
  obtain ⟨hsize, -⟩ := packedSize_exact .standard "18446744073709551611x 2S"
    (ofFields "18446744073709551611x 2S"
      [⟨.pad, 18446744073709551611⟩, ⟨.dynamic, 1⟩, ⟨.dynamic, 1⟩]) rfl [.bytes [7], .bytes [8]]
  obtain ⟨-, -, -, hrefused, -⟩ := packedSize_exact .standard "18446744073709551611x 2S"
    (ofFields "18446744073709551611x 2S"
      [⟨.pad, 18446744073709551611⟩, ⟨.dynamic, 1⟩, ⟨.dynamic, 1⟩]) rfl [.bytes [7], .bytes [8, 9]]
  obtain ⟨-, -, -, -, hcut⟩ := packedSize_exact .standard "h S"
    (ofFields "h S" [⟨.int16, 1⟩, ⟨.dynamic, 1⟩]) rfl [.int 5, .bytes (List.replicate 300 7)]
  refine ⟨(hsize maxSize).mpr ⟨rfl, ?_, rfl, le_rfl⟩, hrefused .strict _ rfl, ?_⟩
  · simp [assign, carriers, ofFields, placed, Tag.hasValue]
  · intro bytes h
    rw [hcut .strict bytes h]
    decide +kernel

end Layout

end PackedRecord
