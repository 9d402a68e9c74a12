import Mathlib
import PackedRecord.Proofs.Wire.Decision
import PackedRecord.Proofs.Wire.RoundTrip

/-!
# What a policy can change

A policy decides whether values are taken, and nothing else.  There is one that takes whatever any
policy takes (`Policy.lenient`), and every other agrees with it byte for byte or refuses: a long
string, where long strings are not cut, or else an integer that does not fit, where integers do not
wrap (`Layout.packWith_eq_error_iff_of_lenient`).  Cutting the long strings oneself has the effect
of a policy that cuts them (`Layout.packInto_cutStrings`), and an integer that was not to wrap is
read back as it was (`Slot.integer?_normal?`).

The policy is asked in both passes and in more than one place, so each of these is first a
statement about a single field, and then one about all fields, by induction or through the order
of the checks. -/

namespace PackedRecord

/-- Integers wrap and long strings are cut. -/
def Policy.lenient : Policy := ⟨.wrap, .truncate⟩

/-! ## What the lenient policy takes -/

section

variable {policy : Policy} {running : ℕ} {f : Slot × Value} {fault : PackFault}

/-- What the lenient policy finds wrong with a string is wrong under every policy that does not find
it too long. -/
lemma StringFault.of_not_lenient (h : ∀ other, ¬ StringFault .lenient running f other) :
    StringFault policy running f fault ↔ policy.longStrings = .reject ∧ LongString f fault := by
  constructor
  · intro hfault
    cases hfault with
    | notBytes hs hv => exact absurd (.notBytes hs hv) (h _)
    | tooLong hpolicy hlong => exact ⟨hpolicy, hlong⟩
    | tooMuch hs _ hover => exact absurd (.tooMuch hs (Or.inr rfl) hover) (h _)
  · rintro ⟨hpolicy, hlong⟩
    exact .tooLong hpolicy hlong

lemma FieldFault.of_not_lenient (h : ∀ other, ¬ FieldFault .lenient f other) :
    FieldFault policy f fault ↔ policy.overflow = .strict ∧ OutsideRange f fault := by
  constructor
  · intro hfault
    cases hfault with
    | notInteger hs hv => exact absurd (.notInteger hs hv) (h _)
    | notNumber hs hv => exact absurd (.notNumber hs hv) (h _)
    | notOneByte hs hv => exact absurd (.notOneByte hs hv) (h _)
    | notBytes hs hv => exact absurd (.notBytes hs hv) (h _)
    | outside hpolicy hout => exact ⟨hpolicy, hout⟩
  · rintro ⟨hpolicy, hout⟩
    exact .outside hpolicy hout

/-- The lenient policy finds nothing wrong that another policy does not. -/
lemma FieldFault.of_lenient (h : FieldFault .lenient f fault) : FieldFault policy f fault := by
  cases h with
  | notInteger hs hv => exact .notInteger hs hv
  | notNumber hs hv => exact .notNumber hs hv
  | notOneByte hs hv => exact .notOneByte hs hv
  | notBytes hs hv => exact .notBytes hs hv
  | outside hpolicy _ => cases hpolicy

end

/-- A value that some policy takes is taken by the lenient one. -/
lemma Slot.exists_payload_lenient {s : Slot} {policy : Policy} {v : Value} {bytes : List UInt8}
    (h : s.payload policy v = .ok bytes) : ∃ bytes', s.payload .lenient v = .ok bytes' := by
  by_cases hs : s.tag = .dynamic
  · obtain ⟨bs, n, hbs, -, -⟩ := payload_of_dynamic hs h
    have hlength : s.dynamicLength .lenient bs = .ok (min bs.length maxStringLength) :=
      dynamicLength_of_kept (Or.inr rfl)
    simp only [payload, Tag.eq_dynamic_iff.mp hs, hbs, hlength]
    exact ⟨_, rfl⟩
  · cases hlenient : s.payload .lenient v with
    | ok bytes' => exact ⟨bytes', rfl⟩
    | error fault =>
      have hfault : FieldFault policy (s, v) fault := (fieldFault_of_payload hs hlenient).of_lenient
      rw [payload_of_fieldFault hfault] at h
      cases h

namespace Layout

variable {l : Layout} {policy : Policy} {values : List Value} {bytes : Array UInt8}

/-- What any policy packs, the lenient one packs to the same bytes. -/
theorem packWith_lenient (hl : l.WellFormed) (h : l.packWith policy values = .ok bytes) :
    l.packWith .lenient values = .ok bytes := by
  obtain ⟨pieces, henc, htakes, hle, hbytes⟩ := encodes_of_packWith hl h
  have hlenient : Policy.lenient.Takes (assignment l.slots values) := by
    intro f hf
    obtain ⟨bs, hbs⟩ := htakes f hf
    exact Slot.exists_payload_lenient hbs
  rw [packWith_of_encodes hl henc hlenient, if_pos hle, ← hbytes]

/-- **What a policy refuses of what the lenient one packs**: the first long string, or if none of
them counts, the first integer outside its range. -/
theorem packWith_eq_error_iff_of_lenient (hl : l.WellFormed)
    (h : l.packWith .lenient values = .ok bytes) {fault : PackFault} :
    l.packWith policy values = .error fault ↔
      policy.longStrings = .reject ∧ FirstFault (fun _ => LongString) (l.assign values) fault ∨
        (policy.longStrings = .reject → Faultless (fun _ => LongString) (l.assign values)) ∧
          policy.overflow = .strict ∧
            FirstFault (fun _ => OutsideRange) (l.assign values) fault := by
  obtain ⟨n, hpack⟩ := packInto_of_packWith h
  have hdecides := (packInto_eq_iff hl).mp (congrArg Prod.snd hpack)
  cases hdecides with
  | taken harity hstrings hfits hfields =>
    rw [List.size_toArray, List.length_nil] at hfits
    -- Where the lenient policy finds nothing, only what it tolerates is left to find.
    have hstring : ∀ before f after, l.assign values = before ++ f :: after → ∀ other,
        StringFault policy (l.size + stringBytes before) f other ↔
          policy.longStrings = .reject ∧ LongString f other := by
      intro before f after hsplit other
      exact StringFault.of_not_lenient (hstrings before f after hsplit)
    have hfield : ∀ before f after, l.assign values = before ++ f :: after → ∀ other,
        FieldFault policy f other ↔ policy.overflow = .strict ∧ OutsideRange f other := by
      intro before f after hsplit other
      exact FieldFault.of_not_lenient (hfields before f after hsplit)
    have hfirst : FirstFault (fun before => StringFault policy (l.size + stringBytes before))
        (l.assign values) fault ↔
          policy.longStrings = .reject ∧
            FirstFault (fun _ => LongString) (l.assign values) fault :=
      (firstFault_congr hstring).trans firstFault_and
    have hnone := (faultless_congr hstring).trans faultless_and
    have houtside : FirstFault (fun _ => FieldFault policy) (l.assign values) fault ↔
        policy.overflow = .strict ∧ FirstFault (fun _ => OutsideRange) (l.assign values) fault :=
      (firstFault_congr hfield).trans firstFault_and
    rw [packWith_eq_error_iff hl]
    constructor
    · intro hrefused
      cases hrefused with
      | arity hne => exact absurd harity hne
      | string _ hfault => exact Or.inl (hfirst.mp hfault)
      | full _ _ hfull => exact absurd hfits (not_le.mpr hfull)
      | field _ hnostring _ hfault =>
        exact Or.inr ⟨hnone.mp hnostring, houtside.mp hfault⟩
    · rintro (hlong | ⟨hnolong, hout⟩)
      · exact .string harity (hfirst.mpr hlong)
      · exact .field harity (hnone.mpr hnolong) hfits (houtside.mpr hout)

end Layout

/-! ## Cutting long strings -/

/-- A value with no more content than a dynamic string can hold, if it is for one. -/
def Slot.cut (s : Slot) (v : Value) : Value :=
  match s.tag, v with
  | .dynamic, .bytes bs => .bytes (bs.take maxStringLength)
  | _, _ => v

/-- The values with the long strings cut. -/
def Layout.cutStrings (l : Layout) (values : List Value) : List Value :=
  values.mapIdx fun k v => (l.carriers[k]?.map fun s => s.cut v).getD v

lemma Value.eq_bytes_or_not (v : Value) : (∃ bs, v = .bytes bs) ∨ v.isBytes = false := by
  cases v with
  | bytes bs => exact Or.inl ⟨bs, rfl⟩
  | int | uint | float | bool => exact Or.inr rfl

namespace Slot

variable {s : Slot} {overflow : Overflow} {v : Value}

lemma cut_of_not_dynamic (hs : s.tag ≠ .dynamic) (v : Value) : s.cut v = v := by
  unfold cut
  split
  · contradiction
  · rfl

lemma cut_bytes (hs : s.tag = .dynamic) (bs : List UInt8) :
    s.cut (.bytes bs) = .bytes (bs.take maxStringLength) := by
  simp only [cut, hs]

lemma cut_of_not_bytes (hv : v.isBytes = false) : s.cut v = v := by
  unfold cut
  split
  · cases hv
  · rfl

lemma dynamicLength_truncate (overflow : Overflow) (bs : List UInt8) :
    s.dynamicLength ⟨overflow, .truncate⟩ bs = .ok (min bs.length maxStringLength) :=
  dynamicLength_of_kept (Or.inr rfl)

/-- The content that a cut string has goes into the field as it is. -/
lemma dynamicLength_take (bs : List UInt8) (policy : Policy) :
    s.dynamicLength policy (bs.take maxStringLength) = .ok (min bs.length maxStringLength) := by
  have hlength : (bs.take maxStringLength).length = min bs.length maxStringLength := by
    rw [List.length_take, min_comm]
  rw [dynamicLength, hlength, if_pos (min_le_right _ _)]

lemma prefixed_take (bs : List UInt8) :
    prefixed (min bs.length maxStringLength) (bs.take maxStringLength) =
      prefixed (min bs.length maxStringLength) bs := by
  rw [prefixed, prefixed, List.take_take, min_assoc, min_self]

/-- A policy that cuts strings writes what one that does not writes of a cut string. -/
theorem payload_cut (s : Slot) (overflow : Overflow) (v : Value) :
    s.payload ⟨overflow, .truncate⟩ v = s.payload ⟨overflow, .reject⟩ (s.cut v) := by
  by_cases hs : s.tag = .dynamic
  · have hkind := Tag.eq_dynamic_iff.mp hs
    rcases v.eq_bytes_or_not with ⟨bs, rfl⟩ | hv
    · rw [cut_bytes hs]
      simp only [payload, hkind, bytesOf_bytes, dynamicLength_truncate, dynamicLength_take,
        Except.map, prefixed_take]
    · rw [cut_of_not_bytes hv]
      simp only [payload, hkind, bytesOf_of_not_bytes hv]
  · -- Only the policy for integers is asked in the other fields, and it is the same.
    have hdynamic : s.tag.kind ≠ .dynamicString := fun hk => hs (Tag.eq_dynamic_iff.mpr hk)
    rw [cut_of_not_dynamic hs]
    unfold payload
    split <;> first | rfl | contradiction

end Slot

lemma addDynamicSizes_cut (overflow : Overflow) (running : ℕ) (fields : List (Slot × Value)) :
    addDynamicSizes ⟨overflow, .truncate⟩ running fields =
      addDynamicSizes ⟨overflow, .reject⟩ running (fields.map fun f => (f.1, f.1.cut f.2)) := by
  induction fields generalizing running with
  | nil => rfl
  | cons f fields ih =>
    obtain ⟨s, v⟩ := f
    simp only [List.map_cons, addDynamicSizes]
    by_cases hs : s.tag = .dynamic
    · rw [if_pos hs, if_pos hs]
      rcases v.eq_bytes_or_not with ⟨bs, rfl⟩ | hv
      · rw [Slot.cut_bytes hs]
        simp only [Slot.bytesOf_bytes, Slot.dynamicLength_truncate, Slot.dynamicLength_take, ih]
      · rw [Slot.cut_of_not_bytes hv]
        simp only [Slot.bytesOf_of_not_bytes hv]
    · rw [if_neg hs, if_neg hs, ih]

lemma Writer.run_cut (overflow : Overflow) (w : Writer) (fields : List (Slot × Value)) :
    w.run ⟨overflow, .truncate⟩ fields =
      w.run ⟨overflow, .reject⟩ (fields.map fun f => (f.1, f.1.cut f.2)) := by
  induction fields generalizing w with
  | nil => rfl
  | cons f fields ih =>
    obtain ⟨s, v⟩ := f
    simp only [List.map_cons, run, Slot.payload_cut, ih]

namespace Layout

variable {l : Layout} {values : List Value}

@[simp] lemma length_cutStrings (l : Layout) (values : List Value) :
    (l.cutStrings values).length = values.length := by
  simp [cutStrings]

lemma assign_cutStrings (l : Layout) (values : List Value) :
    l.assign (l.cutStrings values) = (l.assign values).map fun f => (f.1, f.1.cut f.2) := by
  apply List.ext_getElem?
  intro k
  simp only [assign, List.getElem?_map, List.zip, List.getElem?_zipWith, cutStrings,
    List.getElem?_mapIdx]
  cases hs : l.carriers[k]? with
  | none => simp
  | some s => cases hv : values[k]? <;> simp

/-- **A policy that cuts long strings packs as one that refuses them packs the cut strings**, onto
any buffer, and with the same faults. -/
theorem packInto_cutStrings (l : Layout) (overflow : Overflow) (buffer : Array UInt8)
    (values : List Value) :
    l.packInto ⟨overflow, .truncate⟩ buffer values =
      l.packInto ⟨overflow, .reject⟩ buffer (l.cutStrings values) := by
  have hsize : l.packedSizeWith ⟨overflow, .truncate⟩ values =
      l.packedSizeWith ⟨overflow, .reject⟩ (l.cutStrings values) := by
    simp only [packedSizeWith, length_cutStrings, assign_cutStrings, addDynamicSizes_cut]
  simp only [packInto, hsize, assign_cutStrings, Writer.run_cut]

end Layout

/-! ## Integers that are not to wrap -/

namespace Slot

variable {s : Slot} {policy : Policy} {v : Value}

/-- An integer that was taken and was not to wrap is in the range of its field. -/
lemma exists_inRange (hpolicy : policy.overflow = .strict) {bytes : List UInt8}
    (h : s.integerWord policy v = .ok bytes) :
    ∃ x, v.integer? = some x ∧ s.tag.range.1 ≤ x ∧ x ≤ s.tag.range.2 := by
  cases hx : v.integer? with
  | none =>
    simp only [integerWord, hx] at h
    cases h
  | some x =>
    have hin : ¬ (x < s.tag.range.1 ∨ s.tag.range.2 < x) := by
      intro hout
      rw [integerWord_of_outside hx hpolicy hout] at h
      cases h
    obtain ⟨hlow, hhigh⟩ := not_or.mp hin
    exact ⟨x, rfl, not_lt.mp hlow, not_lt.mp hhigh⟩

/-- In a signed field an integer of its range is its own normal form. -/
lemma normal?_of_signed_inRange (hs : s.tag.kind = .signedInt) {x : ℤ} (hx : v.integer? = some x)
    (hlow : s.tag.range.1 ≤ x) (hhigh : x ≤ s.tag.range.2) :
    ∃ w, s.normal? v = some w ∧ w.integer? = some x := by
  have hnormal : s.normal? v =
      some (.int (Int64.ofInt (Int.bmod x (2 ^ (8 * s.tag.width))))) := by
    simp only [normal?, hs, hx, Option.map_some]
  refine ⟨_, hnormal, ?_⟩
  -- Two integers of the range that are congruent are the same.
  obtain ⟨hlow', hhigh', hcong⟩ := (normal?_signedInt_iff hs hx).mp hnormal
  rw [Tag.range_of_signed hs] at hlow hhigh
  have hpos := Tag.width_pos (Or.inl hs)
  have hself : x = Int.bmod x (2 ^ (8 * s.tag.width)) :=
    (Word.eq_bmod_iff hpos).mpr ⟨hlow, Int.lt_of_le_sub_one hhigh, rfl⟩
  have hresidue := (Word.eq_bmod_iff hpos).mpr ⟨hlow', hhigh', hcong⟩
  exact congrArg some (hresidue.trans hself.symm)

/-- In an unsigned field an integer of its range is its own normal form. -/
lemma normal?_of_unsigned_inRange (hs : s.tag.kind = .unsignedInt) {x : ℤ}
    (hx : v.integer? = some x) (hlow : s.tag.range.1 ≤ x) (hhigh : x ≤ s.tag.range.2) :
    ∃ w, s.normal? v = some w ∧ w.integer? = some x := by
  have hnormal : s.normal? v = some (.uint (UInt64.ofNat (x % 2 ^ (8 * s.tag.width)).toNat)) := by
    simp only [normal?, hs, hx, Option.map_some]
  refine ⟨_, hnormal, ?_⟩
  have hresidue := (normal?_unsignedInt_iff hs hx).mp hnormal
  rw [Tag.range_of_unsigned hs] at hlow hhigh
  have hself : x % 2 ^ (8 * s.tag.width) = x :=
    Int.emod_eq_of_lt hlow (Int.lt_of_le_sub_one hhigh)
  exact congrArg some (hresidue.trans hself)

/-- **An integer that was not to wrap is read back as it was**, from a signed field and from an
unsigned one. -/
theorem integer?_normal? (hs : s.tag.kind = .signedInt ∨ s.tag.kind = .unsignedInt)
    (hpolicy : policy.overflow = .strict) {bytes : List UInt8}
    (h : s.payload policy v = .ok bytes) :
    ∃ x w, v.integer? = some x ∧ s.normal? v = some w ∧ w.integer? = some x := by
  rcases hs with hs | hs
  · simp only [payload, hs] at h
    obtain ⟨x, hx, hlow, hhigh⟩ := exists_inRange hpolicy h
    obtain ⟨w, hw, hwx⟩ := normal?_of_signed_inRange hs hx hlow hhigh
    exact ⟨x, w, hx, hw, hwx⟩
  · simp only [payload, hs] at h
    obtain ⟨x, hx, hlow, hhigh⟩ := exists_inRange hpolicy h
    obtain ⟨w, hw, hwx⟩ := normal?_of_unsigned_inRange hs hx hlow hhigh
    exact ⟨x, w, hx, hw, hwx⟩

end Slot

namespace Layout

variable {l : Layout} {policy : Policy} {values : List Value} {bytes : Array UInt8}

/-- The integers of a record that was packed without wrapping are read back as they were. -/
theorem integers_of_strict (hl : l.WellFormed) (hpolicy : policy.overflow = .strict)
    (h : l.packWith policy values = .ok bytes) :
    ∃ out, l.unpack bytes = .ok out ∧ ∀ (k : ℕ) s v, l.carriers[k]? = some s →
      values[k]? = some v → s.tag.kind = .signedInt ∨ s.tag.kind = .unsignedInt →
        ∃ x w, v.integer? = some x ∧ out[k]? = some w ∧ w.integer? = some x := by
  obtain ⟨out, hout, hnormal⟩ := exists_unpack_of_packWith hl h
  refine ⟨out, hout, ?_⟩
  intro k s v hs hv hkind
  have hmem : (s, v) ∈ assignment l.slots values := by
    rw [← assign_eq]
    apply List.mem_of_getElem? (i := k)
    simp only [assign, List.zip, List.getElem?_zipWith, hs, hv]
  obtain ⟨piece, hpiece⟩ := (takes_of_packWith h).2 (s, v) hmem
  obtain ⟨x, w, hx, hw, hwx⟩ := Slot.integer?_normal? hkind hpolicy hpiece
  refine ⟨x, w, hx, ?_, hwx⟩
  have hat := congrArg (fun record => record[k]?) hnormal
  simp only [List.getElem?_map, List.getElem?_zipWith, hs, hv, hw] at hat
  cases ho : out[k]? with
  | none => simp [ho] at hat
  | some o => simpa [ho] using hat

/-- **A policy decides what is taken, never how it is written.**  What is packed under some policy
is packed to the same bytes under the lenient one; what the lenient policy packs another one
refuses for the first long string or for the first integer outside its range, and for nothing
else; cutting long strings is the same as packing cut strings; and integers that were not to wrap
are read back as they were. -/
theorem packWith_policies (room : Room) (format : String) (l : Layout)
    (hl : compileWithin room format = .ok l) (values : List Value) :
    (∀ policy bytes, l.packWith policy values = .ok bytes →
        l.packWith .lenient values = .ok bytes) ∧
      (∀ bytes, l.packWith .lenient values = .ok bytes → ∀ policy fault,
        (l.packWith policy values = .error fault ↔
          policy.longStrings = .reject ∧ FirstFault (fun _ => LongString) (l.assign values) fault ∨
            (policy.longStrings = .reject → Faultless (fun _ => LongString) (l.assign values)) ∧
              policy.overflow = .strict ∧
                FirstFault (fun _ => OutsideRange) (l.assign values) fault)) ∧
      (∀ overflow, l.packWith ⟨overflow, .truncate⟩ values =
        l.packWith ⟨overflow, .reject⟩ (l.cutStrings values)) ∧
      (∀ policy bytes, policy.overflow = .strict → l.packWith policy values = .ok bytes →
        ∃ out, l.unpack bytes = .ok out ∧ ∀ (k : ℕ) s v, l.carriers[k]? = some s →
          values[k]? = some v → s.tag.kind = .signedInt ∨ s.tag.kind = .unsignedInt →
            ∃ x w, v.integer? = some x ∧ out[k]? = some w ∧ w.integer? = some x) := by
  have hwf := wellFormed_of_compile hl
  refine ⟨?_, ?_, ?_, ?_⟩
  · intro policy bytes h
    exact packWith_lenient hwf h
  · intro bytes h policy fault
    exact packWith_eq_error_iff_of_lenient hwf h
  · intro overflow
    simp only [packWith, packInto_cutStrings]
  · intro policy bytes hpolicy h
    exact integers_of_strict hwf hpolicy h

/-- A string of 300 bytes before an integer that does not fit: the string is refused before the
integer is, and where it is cut the integer is refused. -/
theorem packWith_policies_in_turn :
    (ofFields "S b" [⟨.dynamic, 1⟩, ⟨.int8, 1⟩]).packWith .strict
        [.bytes (List.replicate 300 7), .int 200] = .error (.stringTooLong .dynamic 300 255) ∧
      (ofFields "S b" [⟨.dynamic, 1⟩, ⟨.int8, 1⟩]).packWith ⟨.strict, .truncate⟩
        [.bytes (List.replicate 300 7), .int 200] = .error (.outOfRange .int8 200 (-128) 127) := by
  obtain ⟨bytes, hlenient⟩ : ∃ bytes, (ofFields "S b" [⟨.dynamic, 1⟩, ⟨.int8, 1⟩]).packWith .lenient
      [.bytes (List.replicate 300 7), .int 200] = .ok bytes := by
    have htaken : ((ofFields "S b" [⟨.dynamic, 1⟩, ⟨.int8, 1⟩]).packWith .lenient
        [.bytes (List.replicate 300 7), .int 200]).toBool = true := by decide +kernel
    cases hpack : (ofFields "S b" [⟨.dynamic, 1⟩, ⟨.int8, 1⟩]).packWith .lenient
        [.bytes (List.replicate 300 7), .int 200] with
    | ok bytes => exact ⟨bytes, rfl⟩
    | error fault =>
      rw [hpack] at htaken
      cases htaken
  have hrefused := (packWith_policies .standard "S b" (ofFields "S b" [⟨.dynamic, 1⟩, ⟨.int8, 1⟩])
    rfl [.bytes (List.replicate 300 7), .int 200]).2.1 bytes hlenient
  have hassign : (ofFields "S b" [⟨.dynamic, 1⟩, ⟨.int8, 1⟩]).assign
      [.bytes (List.replicate 300 7), .int 200] =
        [(⟨.dynamic, 1, 0⟩, .bytes (List.replicate 300 7)), (⟨.int8, 1, 0⟩, .int 200)] := by
    decide +kernel
  rw [hassign] at hrefused
  constructor
  · apply (hrefused .strict _).mpr
    refine Or.inl ⟨rfl, firstFault_cons.mpr (Or.inl ?_)⟩
    have hlong : LongString (⟨.dynamic, 1, 0⟩, .bytes (List.replicate 300 7)) (.stringTooLong
        .dynamic (List.replicate 300 (7 : UInt8)).length 255) := .intro rfl (by decide +kernel)
    rwa [List.length_replicate] at hlong
  · apply (hrefused ⟨.strict, .truncate⟩ _).mpr
    refine Or.inr ⟨nofun, rfl, firstFault_cons.mpr (Or.inr ⟨?_, firstFault_cons.mpr (Or.inl ?_)⟩)⟩
    · intro other hout
      cases hout with
      | signed hs | unsigned hs => cases hs
    · exact .signed rfl rfl (by decide)

end Layout

end PackedRecord
