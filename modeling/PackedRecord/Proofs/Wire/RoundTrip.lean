import Mathlib
import PackedRecord.Proofs.Wire.Decoding
import PackedRecord.Proofs.Wire.Writer

/-!
# Packing and unpacking again

A record that was packed is unpacked without a fault, and each value comes back as its *normal form*
for its field (`Slot.normal?`): what the field can hold of it.  An integer is reduced to its
residue, in a signed field the one around zero (`Slot.normal?_signedInt_iff`), numbers lose the
precision that the field has not, and byte strings are cut, or filled with zeros.

The proof is one statement about a single field, that decoding its encoding gives the normal form
(`Slot.decode?_encoding?`), and the two descriptions of the engines: packing concatenates encodings
and unpacking takes a concatenation apart.  The order of the fields and the distance that dynamic
strings move them have been dealt with there.
-/

namespace PackedRecord

/-! ## Normal forms -/

namespace Slot

/-- What a field gives back of a value that was packed into it. -/
def normal? (s : Slot) (v : Value) : Option Value :=
  match s.tag.kind with
  | .signedInt =>
    v.integer?.map fun x => .int (Int64.ofInt (Int.bmod x (2 ^ (8 * s.tag.width))))
  | .unsignedInt =>
    v.integer?.map fun x => .uint (UInt64.ofNat (x % 2 ^ (8 * s.tag.width)).toNat)
  | .float32 => v.number?.map fun x => .float (Binary64.widen (Binary64.narrow x))
  | .float64 => v.number?.map .float
  | .bool => some (.bool v.isTruthy)
  | .char => v.bytes?.map .bytes
  | .fixedBytes => v.bytes?.map fun bs => .bytes (zeroFilled s.count bs)
  | .pascalString => v.bytes?.map fun bs => .bytes (bs.take (min (s.count - 1) maxStringLength))
  | .dynamicString => v.bytes?.map fun bs => .bytes (bs.take maxStringLength)
  | .pad => none

/-- The normal form in a signed field is the one congruent integer in its range. -/
theorem normal?_signedInt_iff {s : Slot} (hs : s.tag.kind = .signedInt) {v : Value} {x : ℤ}
    (hx : v.integer? = some x) {y : Int64} :
    s.normal? v = some (.int y) ↔
      -2 ^ (8 * s.tag.width - 1) ≤ y.toInt ∧ y.toInt < 2 ^ (8 * s.tag.width - 1) ∧
        y.toInt ≡ x [ZMOD 2 ^ (8 * s.tag.width)] := by
  have hpos := Tag.width_pos (Or.inl hs)
  have hle := s.tag.width_le
  rw [← Word.eq_bmod_iff hpos]
  simp only [normal?, hs, hx, Option.map_some, Option.some.injEq, Value.int.injEq]
  -- The balanced residue fits 64 bits, because signed words are read back as it.
  have hread := Word.signExtend_residue hpos hle x
  have hvalue := congrArg Int64.toInt hread
  rw [Word.toInt_signExtend hpos hle, Word.toNat_toUInt64 (by rw [Word.length_digits]; exact hle),
    Word.ofDigits_residue, Int.toNat_of_nonneg (Int.emod_nonneg _ (by positivity))] at hvalue
  have hcast : (2 : ℤ) ^ (8 * s.tag.width) = ((2 ^ (8 * s.tag.width) : ℕ) : ℤ) := by
    push_cast
    rfl
  rw [hcast, Int.emod_bmod] at hvalue
  constructor
  · rintro rfl
    exact hvalue.symm
  · intro hy
    rw [← Int64.toInt_inj, ← hvalue, hy]

/-- The normal form in an unsigned field is the residue. -/
theorem normal?_unsignedInt_iff {s : Slot} (hs : s.tag.kind = .unsignedInt) {v : Value} {x : ℤ}
    (hx : v.integer? = some x) {u : UInt64} :
    s.normal? v = some (.uint u) ↔ (u.toNat : ℤ) = x % 2 ^ (8 * s.tag.width) := by
  have hnonneg : 0 ≤ x % 2 ^ (8 * s.tag.width) := Int.emod_nonneg _ (by positivity)
  have hlt : (x % 2 ^ (8 * s.tag.width)).toNat < 2 ^ 64 := by
    have hle : (2 : ℤ) ^ (8 * s.tag.width) ≤ 2 ^ 64 :=
      pow_le_pow_right₀ (by norm_num) (by have := s.tag.width_le; omega)
    have hmod : x % 2 ^ (8 * s.tag.width) < 2 ^ (8 * s.tag.width) :=
      Int.emod_lt_of_pos _ (by positivity)
    omega
  simp only [normal?, hs, hx, Option.map_some, Option.some.injEq, Value.uint.injEq]
  rw [← UInt64.toNat_inj, UInt64.toNat_ofNat', Nat.mod_eq_of_lt hlt]
  omega

/-! ## One field -/

/-- An encoding is a piece of its field. -/
theorem fills_of_encoding? {s : Slot} (hs : s.field.Proper) {v : Value} {piece : List UInt8}
    (h : s.encoding? v = some piece) : s.Fills piece := by
  rw [fills_iff hs]
  cases hk : s.tag.kind with
  | signedInt | unsignedInt | float32 | float64 | fixedBytes =>
    simp only [encoding?, hk, Option.map_eq_some_iff] at h
    obtain ⟨x, -, rfl⟩ := h
    simp
  | bool =>
    simp only [encoding?, hk] at h
    obtain rfl := Option.some.inj h
    rfl
  | char =>
    simp only [encoding?, hk, Option.bind_eq_some_iff] at h
    obtain ⟨bs, -, hbs⟩ := h
    split at hbs
    · next hone =>
      obtain rfl := Option.some.inj hbs
      exact hone
    · cases hbs
  | pascalString =>
    simp only [encoding?, hk, Option.map_eq_some_iff] at h
    obtain ⟨bs, -, rfl⟩ := h
    by_cases hzero : s.count = 0
    · simp [hzero]
    · simp [hzero]
  | dynamicString =>
    simp only [encoding?, hk, Option.map_eq_some_iff] at h
    obtain ⟨bs, -, rfl⟩ := h
    refine ⟨_, _, rfl, ?_⟩
    rw [toNat_ofNat_le (min_le_right _ _), List.length_take]
    omega
  | pad => simp [encoding?, hk] at h

/-- **Decoding the encoding of a value gives its normal form.** -/
theorem decode?_encoding? {s : Slot} {v : Value} {piece : List UInt8}
    (h : s.encoding? v = some piece) : s.decode? piece = s.normal? v := by
  have hle := s.tag.width_le
  unfold encoding? at h
  unfold decode? normal?
  cases hk : s.tag.kind with
  | signedInt =>
    simp only [hk, Option.map_eq_some_iff] at h ⊢
    obtain ⟨x, hx, rfl⟩ := h
    rw [hx, Word.signExtend_residue (Tag.width_pos (Or.inl hk)) hle]
    rfl
  | unsignedInt =>
    simp only [hk, Option.map_eq_some_iff] at h ⊢
    obtain ⟨x, hx, rfl⟩ := h
    rw [hx, Word.toUInt64_residue]
    rfl
  | float32 =>
    simp only [hk, Option.map_eq_some_iff] at h ⊢
    obtain ⟨x, hx, rfl⟩ := h
    rw [hx, Word.toUInt32_digits]
    rfl
  | float64 =>
    simp only [hk, Option.map_eq_some_iff] at h ⊢
    obtain ⟨x, hx, rfl⟩ := h
    rw [hx, Word.toUInt64_digits]
    rfl
  | bool =>
    simp only [hk] at h ⊢
    obtain rfl := Option.some.inj h
    cases v.isTruthy <;> rfl
  | char =>
    simp only [hk, Option.bind_eq_some_iff] at h ⊢
    obtain ⟨bs, hbs, hpiece⟩ := h
    split at hpiece
    · obtain rfl := Option.some.inj hpiece
      rw [hbs]
      rfl
    · cases hpiece
  | fixedBytes =>
    simp only [hk, Option.map_eq_some_iff] at h ⊢
    obtain ⟨bs, hbs, rfl⟩ := h
    rw [hbs]
    rfl
  | pascalString =>
    simp only [hk, Option.map_eq_some_iff] at h ⊢
    obtain ⟨bs, hbs, rfl⟩ := h
    rw [hbs]
    by_cases hzero : s.count = 0
    · simp [hzero]
    · obtain ⟨k, hcount⟩ : ∃ k, s.count = k + 1 := ⟨s.count - 1, by omega⟩
      simp only [hcount, Nat.succ_ne_zero, if_false, prefixed, zeroFilled_succ_cons,
        Nat.add_sub_cancel, Option.map_some]
      set n := min (min bs.length k) maxStringLength with hn
      obtain ⟨hbyte, -, hcontent⟩ :=
        counted bs (n := n) (k := k) (by omega) (by omega) (by omega)
      have htake : bs.take (min k maxStringLength) = bs.take n := by
        rw [List.take_eq_take_iff]
        omega
      have hmin : min (UInt8.ofNat n).toNat k = n := by
        rw [hbyte]
        omega
      rw [hmin, hcontent, htake]
  | dynamicString =>
    simp only [hk, Option.map_eq_some_iff] at h ⊢
    obtain ⟨bs, hbs, rfl⟩ := h
    have htake : bs.take maxStringLength = bs.take (min bs.length maxStringLength) := by
      rw [List.take_eq_take_iff]
      omega
    rw [hbs, prefixed, List.tail_cons, Option.map_some, htake]
  | pad => simp [hk] at h

lemma exists_normal?_of_encoding? {s : Slot} {v : Value} {piece : List UInt8}
    (hs : s.tag.hasValue = true) (h : s.encoding? v = some piece) :
    ∃ out, s.decode? piece = some out ∧ s.normal? v = some out := by
  have hsome : s.decode? piece ≠ none := by
    rw [Ne, decode?_eq_none_iff, hs]
    exact Bool.false_ne_true.symm
  obtain ⟨out, hout⟩ := Option.ne_none_iff_exists'.mp hsome
  exact ⟨out, hout, (decode?_encoding? h).symm.trans hout⟩

end Slot

/-! ## Whole records -/

namespace Encodes

variable {slots : List Slot} {values : List Value} {pieces : List (List UInt8)}

/-- The pieces of a record are pieces of its fields. -/
lemma fills (henc : Encodes slots values pieces) (hproper : ∀ s ∈ slots, s.field.Proper) :
    List.Forall₂ Slot.Fills slots pieces := by
  induction henc with
  | nil => exact .nil
  | @pad s slots values pieces hs _ ih =>
    have hne : s.tag ≠ .dynamic := by
      intro heq
      rw [heq] at hs
      cases hs
    obtain ⟨hslot, hproper⟩ := List.forall_mem_cons.mp hproper
    refine .cons ?_ (ih hproper)
    rw [Slot.fills_of_not_dynamic hne, List.length_replicate, Slot.size_of_pad hslot hs]
  | @field s slots v values piece pieces _ hpiece _ ih =>
    obtain ⟨hslot, hproper⟩ := List.forall_mem_cons.mp hproper
    exact .cons (Slot.fills_of_encoding? hslot hpiece) (ih hproper)

/-- The pieces of a record decode to the normal forms of its values. -/
lemma map_decoded (henc : Encodes slots values pieces) :
    (decoded slots pieces).map some =
      List.zipWith Slot.normal? (slots.filter fun s => s.tag.hasValue) values := by
  induction henc with
  | nil => rfl
  | @pad s slots values pieces hs _ ih =>
    have hnone : s.decode? (List.replicate s.count 0) = none := Slot.decode?_eq_none_iff.mpr hs
    simp [hs, hnone, ih]
  | @field s slots v values piece pieces hs hpiece _ ih =>
    obtain ⟨out, hdecode, hnormal⟩ := Slot.exists_normal?_of_encoding? hs hpiece
    simp [hs, hdecode, hnormal, ih]

lemma length_decoded (henc : Encodes slots values pieces) :
    (decoded slots pieces).length = (slots.filter fun s => s.tag.hasValue).length := by
  have hmap := congrArg List.length henc.map_decoded
  rw [List.length_map, List.length_zipWith, henc.length_values, min_self] at hmap
  exact hmap

end Encodes

namespace Layout

/-- A packed record is unpacked to the normal forms of its values. -/
lemma exists_unpack_of_packWith {l : Layout} (hl : l.WellFormed) {policy : Policy}
    {values : List Value} {bytes : Array UInt8} (h : l.packWith policy values = .ok bytes) :
    ∃ record, l.unpack bytes = .ok record ∧
      record.map some = List.zipWith Slot.normal? l.carriers values := by
  obtain ⟨pieces, henc, -, hle, hbytes⟩ := encodes_of_packWith hl h
  refine ⟨decoded l.slots pieces, ?_, henc.map_decoded⟩
  rw [unpack_eq_ok_iff hl]
  refine ⟨pieces, hbytes, henc.fills hl.proper, rfl, ?_⟩
  rwa [← Array.length_toList, hbytes]

/-- **Round trip.**  A packed record is unpacked, and the values that come back are the normal
forms of those that were packed, field by field. -/
theorem unpack_packWith (room : Room) (format : String) (l : Layout)
    (hl : compileWithin room format = .ok l) (policy : Policy) (values : List Value)
    (bytes : Array UInt8) (h : l.packWith policy values = .ok bytes) :
    ∃ out, l.unpack bytes = .ok out ∧ out.length = l.arity ∧
      out.map some = List.zipWith Slot.normal? l.carriers values := by
  have hwf := wellFormed_of_compile hl
  obtain ⟨pieces, henc, -, hle, hbytes⟩ := encodes_of_packWith hwf h
  have hsize : bytes.size = pieces.flatten.length := by
    rw [← Array.length_toList, hbytes]
  refine ⟨decoded l.slots pieces, ?_, ?_, ?_⟩
  · rw [unpack_eq_ok_iff hwf]
    exact ⟨pieces, hbytes, henc.fills hwf.proper, rfl, by omega⟩
  · rw [henc.length_decoded, hwf.arity_eq]
    rfl
  · exact henc.map_decoded

/-- An integer that wraps to a negative one, and a cut string, behind a dynamic string. -/
theorem unpack_packWith_wrapped :
    ∃ out, (ofFields "S b 4p x 3s" [⟨.dynamic, 1⟩, ⟨.int8, 1⟩, ⟨.pascal, 4⟩, ⟨.pad, 1⟩,
        ⟨.fixedBytes, 3⟩]).unpack #[2, 7, 8, 0xc8, 3, 1, 2, 3, 0, 9, 0, 0] = .ok out ∧
      out.length = 4 ∧
      out.map some = [some (.bytes [7, 8]), some (.int (-56)), some (.bytes [1, 2, 3]),
        some (.bytes [9, 0, 0])] :=
  let ⟨out, hread, hlength, hout⟩ := unpack_packWith .standard "S b 4p x 3s"
    (ofFields "S b 4p x 3s" [⟨.dynamic, 1⟩, ⟨.int8, 1⟩, ⟨.pascal, 4⟩, ⟨.pad, 1⟩, ⟨.fixedBytes, 3⟩])
    rfl .standard [.bytes [7, 8], .int 200, .bytes [1, 2, 3, 4, 5], .bytes [9]]
    #[2, 7, 8, 0xc8, 3, 1, 2, 3, 0, 9, 0, 0] (by decide +kernel)
  ⟨out, hread, hlength, hout.trans (by decide +kernel)⟩

end Layout

end PackedRecord
