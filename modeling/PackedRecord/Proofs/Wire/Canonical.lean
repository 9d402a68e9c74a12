import Mathlib
import PackedRecord.Proofs.Number.Conversions
import PackedRecord.Proofs.Wire.RoundTrip

/-!
# Unpacking and packing again

Unpacking takes any bytes that fall into pieces, and some pieces decode alike: what stands in a pad
or behind the content of a `p` string is not looked at, a `p` length that exceeds the capacity
counts as the capacity, and every nonzero byte is true.  `Slot.canonical` picks one of the pieces
that decode alike, changing these bytes and no others, except that the NaNs of an `f` field become
quiet.

Packing what was unpacked gives exactly the canonical pieces (`Slot.encoding?_of_decode?`), and
under any policy: a decoded integer is in the range of its field, and a decoded string is not too
long (`Slot.exists_payload_of_decode?`).  A canonical piece is as long as the one it stands for and
decodes alike, so nothing moves.  And the pieces that packing writes are canonical
(`Slot.canonical_of_encoding?`), so packed records come back as they were.
-/

namespace PackedRecord

namespace Slot

/-! ## Canonical pieces -/

/-- The piece that is written for what a piece decodes to. -/
def canonical (s : Slot) (piece : List UInt8) : List UInt8 :=
  match s.tag.kind with
  | .float32 =>
    if (Binary32.mk (Word.toUInt64 piece).toUInt32).isNaN then
      Word.digits 4 (Binary32.mk (Word.toUInt64 piece).toUInt32).quiet.bits.toNat
    else piece
  | .bool => piece.map fun b => if b = 0 then 0 else 1
  | .pascalString =>
    match piece with
    | [] => []
    | m :: content =>
      UInt8.ofNat (min m.toNat (s.count - 1)) ::
        zeroFilled (s.count - 1) (content.take (min m.toNat (s.count - 1)))
  | .pad => List.replicate piece.length 0
  | _ => piece

/-- The number in the four bytes of an `f` field has these bytes again. -/
lemma digits_bits {bs : List UInt8} (h : bs.length = 4) :
    Word.digits 4 (Binary32.mk (Word.toUInt64 bs).toUInt32).bits.toNat = bs := by
  have hlt := Word.ofDigits_lt_pow bs
  rw [h] at hlt
  have hbits : (Binary32.mk (Word.toUInt64 bs).toUInt32).bits.toNat = Word.ofDigits bs := by
    rw [Word.toUInt64, UInt64.toUInt32_ofNat', UInt32.toNat_ofNat', Nat.mod_eq_of_lt hlt]
  rw [hbits, ← h, Word.digits_ofDigits]

/-- The bytes of an `f` field are canonical when they are those of the quiet number. -/
lemma canonical_float32 {s : Slot} (hs : s.tag.kind = .float32) {bs : List UInt8}
    (h : bs.length = 4) :
    s.canonical bs =
      Word.digits 4 (Binary32.mk (Word.toUInt64 bs).toUInt32).quiet.bits.toNat := by
  simp only [canonical, hs]
  split
  · rfl
  · next hnan =>
    rw [Bool.not_eq_true] at hnan
    rw [Binary32.quiet_of_not_isNaN hnan, digits_bits h]

/-- Nothing moves when pieces are replaced by canonical ones. -/
lemma length_canonical {s : Slot} (hs : s.field.Proper) {piece : List UInt8}
    (hfills : s.Fills piece) : (s.canonical piece).length = piece.length := by
  have hpiece := (fills_iff hs).mp hfills
  cases hk : s.tag.kind with
  | float32 =>
    simp only [hk] at hpiece
    rw [canonical_float32 hk hpiece, Word.length_digits, hpiece]
  | pascalString =>
    simp only [hk] at hpiece
    cases piece with
    | nil => simp only [canonical, hk]
    | cons m bs =>
      rw [List.length_cons] at hpiece
      simp only [canonical, hk, List.length_cons, length_zeroFilled]
      omega
  | bool | pad => simp [canonical, hk]
  | signedInt | unsignedInt | float64 | char | fixedBytes | dynamicString =>
    simp only [canonical, hk]

lemma fills_canonical {s : Slot} (hs : s.field.Proper) {piece : List UInt8}
    (hfills : s.Fills piece) : s.Fills (s.canonical piece) := by
  by_cases hdynamic : s.tag = .dynamic
  · have hsame : s.canonical piece = piece := by
      simp only [canonical, Tag.eq_dynamic_iff.mp hdynamic]
    rwa [hsame]
  · rw [fills_of_not_dynamic hdynamic, length_canonical hs hfills,
      length_of_fills hfills hdynamic]

/-- The content of a `p` string is found again within its capacity. -/
lemma counted_capacity (m : UInt8) (bs : List UInt8) :
    (UInt8.ofNat (min m.toNat bs.length)).toNat = min m.toNat bs.length ∧
      (bs.take (min m.toNat bs.length)).length = min m.toNat bs.length ∧
      (zeroFilled bs.length (bs.take (min m.toNat bs.length))).take (min m.toNat bs.length) =
        bs.take (min m.toNat bs.length) := by
  have hlt := m.toNat_lt
  apply counted
  · exact min_le_right _ _
  · exact min_le_right _ _
  · unfold maxStringLength
    omega

/-- A piece and its canonical form decode alike. -/
theorem decode?_canonical {s : Slot} (hs : s.field.Proper) {piece : List UInt8}
    (hfills : s.Fills piece) : s.decode? (s.canonical piece) = s.decode? piece := by
  have hpiece := (fills_iff hs).mp hfills
  cases hk : s.tag.kind with
  | float32 =>
    simp only [hk] at hpiece
    rw [canonical_float32 hk hpiece]
    set x := Binary32.mk (Word.toUInt64 piece).toUInt32 with hx
    have hbits : (Word.toUInt64 (Word.digits 4 x.quiet.bits.toNat)).toUInt32 = x.quiet.bits :=
      Word.toUInt32_digits x.quiet.bits
    simp only [decode?, hk, hbits]
    rw [← hx, ← Binary64.widen_quiet x]
  | bool =>
    simp only [hk] at hpiece
    obtain ⟨b, rfl⟩ := List.length_eq_one_iff.mp hpiece
    have hzero : b = 0 ↔ b.toNat = 0 := by rw [← UInt8.toNat_inj]; rfl
    by_cases hb : b = 0
    · simp [decode?, canonical, hk, hb]
    · simp [decode?, canonical, hk, hb, Word.ofDigits, ← hzero]
  | pascalString =>
    simp only [hk] at hpiece
    cases piece with
    | nil => simp only [canonical, hk]
    | cons m bs =>
      have hcount : s.count - 1 = bs.length := by
        rw [← hpiece, List.length_cons, Nat.add_sub_cancel]
      obtain ⟨hbyte, -, hcontent⟩ := counted_capacity m bs
      simp only [decode?, canonical, hk, hcount, hbyte, min_assoc, min_self, hcontent]
  | pad => simp only [decode?, hk]
  | signedInt | unsignedInt | float64 | char | fixedBytes | dynamicString =>
    simp only [canonical, hk]

/-! ## Packing what was unpacked -/

/-- An integer in the range of its field is taken by every policy. -/
lemma exists_integerWord {s : Slot} {v : Value} {x : ℤ} (hx : v.integer? = some x)
    (hlow : s.tag.range.1 ≤ x) (hhigh : x ≤ s.tag.range.2) (policy : Policy) :
    ∃ bytes, s.integerWord policy v = .ok bytes := by
  have hrange : ¬ (policy.overflow = .strict ∧ (x < s.tag.range.1 ∨ s.tag.range.2 < x)) := by
    rintro ⟨-, hlt | hlt⟩
    · omega
    · omega
  simp only [integerWord, hx, hrange, if_false]
  exact ⟨_, rfl⟩

/-- A signed word holds the integer that it is read as, which is in the range of its field. -/
lemma signed_of_fills {s : Slot} (hs : s.tag.kind = .signedInt) {piece : List UInt8}
    (hlength : piece.length = s.tag.width) :
    s.tag.range.1 ≤ (Word.signExtend (Word.toUInt64 piece) s.tag.width).toInt ∧
      (Word.signExtend (Word.toUInt64 piece) s.tag.width).toInt ≤ s.tag.range.2 ∧
      Word.digits s.tag.width ((Word.signExtend (Word.toUInt64 piece) s.tag.width).toInt %
        2 ^ (8 * s.tag.width)).toNat = piece := by
  have hpos := Tag.width_pos (Or.inl hs)
  have hle := s.tag.width_le
  have hlt := Word.ofDigits_lt_pow piece
  rw [hlength] at hlt
  have hread := Word.toInt_signExtend hpos hle (Word.toUInt64 piece)
  rw [Word.toNat_toUInt64 (by omega)] at hread
  obtain ⟨hlow, hhigh, hcong⟩ := (Word.eq_bmod_iff hpos).mp hread
  refine ⟨?_, ?_, ?_⟩
  · rw [Tag.range_of_signed hs]
    exact hlow
  · rw [Tag.range_of_signed hs]
    exact Int.le_sub_one_of_lt hhigh
  · have hmod : ((Word.ofDigits piece : ℤ)) % 2 ^ (8 * s.tag.width) = Word.ofDigits piece :=
      Int.emod_eq_of_lt (by omega) (by exact_mod_cast hlt)
    rw [hcong, hmod, Int.toNat_natCast, ← hlength, Word.digits_ofDigits]

/-- An unsigned word holds the integer that it is read as, which is in the range of its field. -/
lemma unsigned_of_fills {s : Slot} (hs : s.tag.kind = .unsignedInt) {piece : List UInt8}
    (hlength : piece.length = s.tag.width) :
    s.tag.range.1 ≤ ((Word.toUInt64 piece).toNat : ℤ) ∧
      ((Word.toUInt64 piece).toNat : ℤ) ≤ s.tag.range.2 ∧
      Word.digits s.tag.width
        (((Word.toUInt64 piece).toNat : ℤ) % 2 ^ (8 * s.tag.width)).toNat = piece := by
  have hle := s.tag.width_le
  have hlt := Word.ofDigits_lt_pow piece
  rw [hlength] at hlt
  have hlt' : (Word.ofDigits piece : ℤ) < 2 ^ (8 * s.tag.width) := by exact_mod_cast hlt
  rw [Word.toNat_toUInt64 (by omega)]
  refine ⟨?_, ?_, ?_⟩
  · rw [Tag.range_of_unsigned hs]
    exact Int.natCast_nonneg _
  · rw [Tag.range_of_unsigned hs]
    exact Int.le_sub_one_of_lt hlt'
  · rw [Int.emod_eq_of_lt (by omega) hlt', Int.toNat_natCast, ← hlength, Word.digits_ofDigits]

/-- **Every policy takes what was unpacked.** -/
theorem exists_payload_of_decode? {s : Slot} (hs : s.field.Proper) {piece : List UInt8}
    (hfills : s.Fills piece) {v : Value} (hv : s.decode? piece = some v) (policy : Policy) :
    ∃ bytes, s.payload policy v = .ok bytes := by
  have hpiece := (fills_iff hs).mp hfills
  cases hk : s.tag.kind with
  | signedInt =>
    simp only [decode?, hk] at hv
    simp only [hk] at hpiece
    obtain rfl := Option.some.inj hv
    obtain ⟨hlow, hhigh, -⟩ := signed_of_fills hk hpiece
    simp only [payload, hk]
    exact exists_integerWord rfl hlow hhigh policy
  | unsignedInt =>
    simp only [decode?, hk] at hv
    simp only [hk] at hpiece
    obtain rfl := Option.some.inj hv
    obtain ⟨hlow, hhigh, -⟩ := unsigned_of_fills hk hpiece
    simp only [payload, hk]
    exact exists_integerWord rfl hlow hhigh policy
  | char =>
    simp only [decode?, hk] at hv
    simp only [hk] at hpiece
    obtain rfl := Option.some.inj hv
    obtain ⟨b, rfl⟩ := List.length_eq_one_iff.mp hpiece
    exact ⟨[b], by simp only [payload, hk, Value.bytes?]⟩
  | dynamicString =>
    simp only [hk] at hpiece
    obtain ⟨m, content, rfl, hm⟩ := hpiece
    simp only [decode?, hk, List.tail_cons] at hv
    obtain rfl := Option.some.inj hv
    have hshort : content.length ≤ maxStringLength := by
      have hlt := m.toNat_lt
      unfold maxStringLength
      omega
    refine ⟨prefixed content.length content, ?_⟩
    simp only [payload, hk, bytesOf, Value.bytes?, dynamicLength, hshort, if_true, Except.map]
  | float32 | float64 | bool | fixedBytes =>
    simp only [decode?, hk] at hv
    obtain rfl := Option.some.inj hv
    simp only [payload, hk]
    exact ⟨_, rfl⟩
  | pascalString =>
    obtain ⟨bs, rfl⟩ : ∃ bs, v = .bytes bs := by
      cases piece with
      | nil =>
        simp only [decode?, hk] at hv
        exact ⟨_, (Option.some.inj hv).symm⟩
      | cons m bs =>
        simp only [decode?, hk] at hv
        exact ⟨_, (Option.some.inj hv).symm⟩
    simp only [payload, hk]
    exact ⟨_, rfl⟩
  | pad => simp [decode?, hk] at hv

/-- **The encoding of what was unpacked is the canonical piece.** -/
theorem encoding?_of_decode? {s : Slot} (hs : s.field.Proper) {piece : List UInt8}
    (hfills : s.Fills piece) {v : Value} (hv : s.decode? piece = some v) :
    s.encoding? v = some (s.canonical piece) := by
  have hpiece := (fills_iff hs).mp hfills
  cases hk : s.tag.kind with
  | signedInt =>
    simp only [decode?, hk] at hv
    simp only [hk] at hpiece
    obtain rfl := Option.some.inj hv
    obtain ⟨-, -, hword⟩ := signed_of_fills hk hpiece
    simp only [encoding?, canonical, hk, Value.integer?, Option.map_some, hword]
  | unsignedInt =>
    simp only [decode?, hk] at hv
    simp only [hk] at hpiece
    obtain rfl := Option.some.inj hv
    obtain ⟨-, -, hword⟩ := unsigned_of_fills hk hpiece
    simp only [encoding?, canonical, hk, Value.integer?, Option.map_some, hword]
  | float32 =>
    simp only [decode?, hk] at hv
    simp only [hk] at hpiece
    obtain rfl := Option.some.inj hv
    rw [canonical_float32 hk hpiece]
    simp only [encoding?, hk, Value.number?, Option.map_some, Binary64.narrow_widen]
  | float64 =>
    simp only [decode?, hk] at hv
    simp only [hk] at hpiece
    obtain rfl := Option.some.inj hv
    have hword : Word.digits 8 (Word.toUInt64 piece).toNat = piece := by
      rw [Word.toNat_toUInt64 hpiece.le, ← hpiece, Word.digits_ofDigits]
    simp only [encoding?, canonical, hk, Value.number?, Option.map_some, hword]
  | bool =>
    simp only [decode?, hk] at hv
    simp only [hk] at hpiece
    obtain rfl := Option.some.inj hv
    obtain ⟨b, rfl⟩ := List.length_eq_one_iff.mp hpiece
    have hzero : b = 0 ↔ b.toNat = 0 := by rw [← UInt8.toNat_inj]; rfl
    by_cases hb : b = 0
    · simp [encoding?, canonical, hk, hb, Value.isTruthy, Word.ofDigits]
    · simp [encoding?, canonical, hk, hb, Value.isTruthy, Word.ofDigits, ← hzero]
  | char =>
    simp only [decode?, hk] at hv
    simp only [hk] at hpiece
    obtain rfl := Option.some.inj hv
    simp only [encoding?, canonical, hk, Value.bytes?, Option.bind_some, hpiece, if_true]
  | fixedBytes =>
    simp only [decode?, hk] at hv
    simp only [hk] at hpiece
    obtain rfl := Option.some.inj hv
    simp only [encoding?, canonical, hk, Value.bytes?, Option.map_some, ← hpiece,
      zeroFilled_length]
  | pascalString =>
    simp only [hk] at hpiece
    cases piece with
    | nil =>
      simp only [decode?, hk] at hv
      obtain rfl := Option.some.inj hv
      rw [List.length_nil] at hpiece
      simp only [encoding?, canonical, hk, Value.bytes?, Option.map_some, ← hpiece, if_true]
    | cons m bs =>
      simp only [decode?, hk] at hv
      obtain rfl := Option.some.inj hv
      have hcount : s.count = bs.length + 1 := hpiece.symm
      obtain ⟨-, hlength, -⟩ := counted_capacity m bs
      have hmin : min (min (min m.toNat bs.length) bs.length) maxStringLength =
          min m.toNat bs.length := by
        have hlt := m.toNat_lt
        unfold maxStringLength
        omega
      simp only [encoding?, canonical, hk, hcount, Nat.add_sub_cancel, Value.bytes?,
        Option.map_some, Nat.succ_ne_zero, if_false, hlength, hmin, prefixed,
        zeroFilled_succ_cons, List.take_take, min_self]
  | dynamicString =>
    simp only [hk] at hpiece
    obtain ⟨m, content, rfl, hm⟩ := hpiece
    simp only [decode?, hk, List.tail_cons] at hv
    obtain rfl := Option.some.inj hv
    have hmin : min content.length maxStringLength = m.toNat := by
      have hlt := m.toNat_lt
      unfold maxStringLength
      omega
    have htake : content.take m.toNat = content := by rw [← hm, List.take_length]
    simp only [encoding?, canonical, hk, Value.bytes?, Option.map_some, hmin, prefixed, htake,
      UInt8.ofNat_toNat]
  | pad => simp [decode?, hk] at hv

/-- **What packing writes is canonical.** -/
theorem canonical_of_encoding? {s : Slot} {v : Value} {piece : List UInt8}
    (h : s.encoding? v = some piece) : s.canonical piece = piece := by
  cases hk : s.tag.kind with
  | float32 =>
    simp only [encoding?, hk, Option.map_eq_some_iff] at h
    obtain ⟨x, -, rfl⟩ := h
    rw [canonical_float32 hk (Word.length_digits 4 _), Word.toUInt32_digits,
      Binary64.quiet_narrow]
  | bool =>
    simp only [encoding?, hk] at h
    obtain rfl := Option.some.inj h
    cases hv : v.isTruthy <;> simp [canonical, hk]
  | pascalString =>
    simp only [encoding?, hk, Option.map_eq_some_iff] at h
    obtain ⟨bs, -, rfl⟩ := h
    by_cases hzero : s.count = 0
    · simp [canonical, hk, hzero]
    · obtain ⟨k, hcount⟩ : ∃ k, s.count = k + 1 := ⟨s.count - 1, by omega⟩
      simp only [canonical, hk, hcount, Nat.succ_ne_zero, if_false, prefixed,
        zeroFilled_succ_cons, Nat.add_sub_cancel]
      set n := min (min bs.length k) maxStringLength with hn
      obtain ⟨hbyte, -, hcontent⟩ :=
        counted bs (n := n) (k := k) (by omega) (by omega) (by omega)
      have hmin : min (UInt8.ofNat n).toNat k = n := by
        rw [hbyte]
        omega
      rw [hmin, hcontent]
  | pad => simp [encoding?, hk] at h
  | signedInt | unsignedInt | float64 | char | fixedBytes | dynamicString =>
    simp only [canonical, hk]

end Slot

/-! ## Whole records -/

section

variable {slots : List Slot} {pieces : List (List UInt8)}

/-- The decoded values are encoded by the canonical pieces, and every policy takes them. -/
lemma encodes_decoded (hfills : List.Forall₂ Slot.Fills slots pieces)
    (hproper : ∀ s ∈ slots, s.field.Proper) (policy : Policy) :
    Encodes slots (decoded slots pieces) (List.zipWith Slot.canonical slots pieces) ∧
      policy.Takes (assignment slots (decoded slots pieces)) := by
  induction hfills with
  | nil =>
    refine ⟨.nil, ?_⟩
    intro f hf
    cases hf
  | @cons s piece slots pieces hpiece _ ih =>
    obtain ⟨hs, hproper⟩ := List.forall_mem_cons.mp hproper
    obtain ⟨henc, htakes⟩ := ih hproper
    rw [List.zipWith_cons_cons, decoded_cons]
    cases hv : s.decode? piece with
    | none =>
      have hpad : s.tag.hasValue = false := Slot.decode?_eq_none_iff.mp hv
      have hcanonical : s.canonical piece = List.replicate s.count 0 := by
        have hkind := Tag.hasValue_eq_false_iff.mp hpad
        have hlength := (Slot.fills_iff hs).mp hpiece
        simp only [hkind] at hlength
        simp only [Slot.canonical, hkind, hlength]
      rw [hcanonical]
      refine ⟨.pad hpad henc, ?_⟩
      rw [Option.toList_none, List.nil_append, assignment_pad hpad]
      exact htakes
    | some v =>
      have hvalue : s.tag.hasValue = true := by
        by_contra hne
        rw [Bool.not_eq_true] at hne
        have hnone : s.decode? piece = none := Slot.decode?_eq_none_iff.mpr hne
        rw [hnone] at hv
        cases hv
      refine ⟨.field hvalue (Slot.encoding?_of_decode? hs hpiece hv) henc, ?_⟩
      rw [Option.toList_some, List.singleton_append, assignment_field hvalue]
      intro f hf
      rcases List.mem_cons.mp hf with rfl | hf
      · exact Slot.exists_payload_of_decode? hs hpiece hv policy
      · exact htakes f hf

/-- The canonical pieces are pieces, as long as the others, and decode alike. -/
lemma canonical_pieces (hfills : List.Forall₂ Slot.Fills slots pieces)
    (hproper : ∀ s ∈ slots, s.field.Proper) :
    List.Forall₂ Slot.Fills slots (List.zipWith Slot.canonical slots pieces) ∧
      (List.zipWith Slot.canonical slots pieces).flatten.length = pieces.flatten.length ∧
      decoded slots (List.zipWith Slot.canonical slots pieces) = decoded slots pieces := by
  induction hfills with
  | nil => exact ⟨.nil, rfl, rfl⟩
  | @cons s piece slots pieces hpiece _ ih =>
    obtain ⟨hs, hproper⟩ := List.forall_mem_cons.mp hproper
    obtain ⟨hfills, hlength, hdecoded⟩ := ih hproper
    rw [List.zipWith_cons_cons]
    refine ⟨.cons (Slot.fills_canonical hs hpiece) hfills, ?_, ?_⟩
    · rw [List.flatten_cons, List.length_append, List.flatten_cons, List.length_append,
        Slot.length_canonical hs hpiece, hlength]
    · rw [decoded_cons, decoded_cons, Slot.decode?_canonical hs hpiece, hdecoded]

/-- The pieces of a packed record are canonical. -/
lemma Encodes.canonical_eq {values : List Value} (henc : Encodes slots values pieces) :
    List.zipWith Slot.canonical slots pieces = pieces := by
  induction henc with
  | nil => rfl
  | @pad s slots values pieces hs _ ih =>
    have hsame : s.canonical (List.replicate s.count 0) = List.replicate s.count 0 := by
      simp only [Slot.canonical, Tag.hasValue_eq_false_iff.mp hs, List.length_replicate]
    rw [List.zipWith_cons_cons, hsame, ih]
  | field _ hpiece _ ih =>
    rw [List.zipWith_cons_cons, Slot.canonical_of_encoding? hpiece, ih]

end

namespace Layout

/-- Packing what was unpacked gives the canonical pieces, under every policy. -/
lemma packWith_decoded {l : Layout} (hl : l.WellFormed) {pieces : List (List UInt8)}
    (hfills : List.Forall₂ Slot.Fills l.slots pieces) (hle : pieces.flatten.length ≤ maxSize)
    (policy : Policy) :
    l.packWith policy (decoded l.slots pieces) =
      .ok (List.zipWith Slot.canonical l.slots pieces).flatten.toArray := by
  obtain ⟨henc, htakes⟩ := encodes_decoded hfills hl.proper policy
  obtain ⟨-, hlength, -⟩ := canonical_pieces hfills hl.proper
  rw [packWith_of_encodes hl henc htakes, hlength, if_pos hle]

/-- **Packing what was unpacked is canonicalization.**  It succeeds under every policy, and what it
gives is as long as the record that was unpacked, consists of the canonical forms of its pieces and
is unpacked to the same values.  A record that was packed itself comes back as it was. -/
theorem packWith_unpack (room : Room) (format : String) (l : Layout)
    (hl : compileWithin room format = .ok l) (buffer : Array UInt8) (values : List Value)
    (h : l.unpack buffer = .ok values) :
    ∃ canon, (∀ policy, l.packWith policy values = .ok canon) ∧ canon.size = buffer.size ∧
      l.unpack canon = .ok values ∧
      (∃ pieces, List.Forall₂ Slot.Fills l.slots pieces ∧ buffer.toList = pieces.flatten ∧
        canon.toList = (List.zipWith Slot.canonical l.slots pieces).flatten) ∧
      ∀ policy written, l.packWith policy written = .ok buffer → canon = buffer := by
  have hwf := wellFormed_of_compile hl
  obtain ⟨pieces, hbuffer, hfills, rfl, hle⟩ := (unpack_eq_ok_iff hwf).mp h
  have hsize : buffer.size = pieces.flatten.length := by
    rw [← Array.length_toList, hbuffer]
  obtain ⟨hfills', hlength, hdecoded⟩ := canonical_pieces hfills hwf.proper
  have hpack := packWith_decoded hwf hfills (by omega)
  refine ⟨(List.zipWith Slot.canonical l.slots pieces).flatten.toArray, hpack, ?_, ?_,
    ⟨pieces, hfills, hbuffer, rfl⟩, ?_⟩
  · rw [List.size_toArray, hlength, hsize]
  · rw [unpack_eq_ok_iff hwf]
    refine ⟨_, rfl, hfills', hdecoded.symm, ?_⟩
    rw [List.size_toArray, hlength]
    omega
  · intro policy written hwritten
    -- The pieces of the packed record are canonical, and its values are those that were read.
    obtain ⟨pieces', henc, -, -, hbuffer'⟩ := encodes_of_packWith hwf hwritten
    have hfills'' := henc.fills hwf.proper
    have hread : l.unpack buffer = .ok (decoded l.slots pieces') := by
      rw [unpack_eq_ok_iff hwf]
      exact ⟨pieces', hbuffer', hfills'', rfl, hle⟩
    have hsame : decoded l.slots pieces' = decoded l.slots pieces := by
      rw [h] at hread
      exact (Except.ok.inj hread).symm
    have hle' : pieces'.flatten.length ≤ maxSize := by
      rw [← hbuffer', Array.length_toList]
      exact hle
    have hpack' := packWith_decoded hwf hfills'' hle' policy
    rw [hsame, hpack policy, henc.canonical_eq] at hpack'
    rw [Except.ok.inj hpack', ← hbuffer']

/-- A true byte other than one, a pad that is not zero and a `p` length beyond the capacity are what
changes. -/
theorem packWith_unpack_hostile :
    (ofFields "S ? 2x 4p h" [⟨.dynamic, 1⟩, ⟨.bool, 1⟩, ⟨.pad, 2⟩, ⟨.pascal, 4⟩,
        ⟨.int16, 1⟩]).packWith .strict [.bytes [7], .bool true, .bytes [1, 2, 3], .int (-2)] =
          .ok #[1, 7, 1, 0, 0, 3, 1, 2, 3, 0xfe, 0xff] ∧
      (ofFields "S ? 2x 4p h" [⟨.dynamic, 1⟩, ⟨.bool, 1⟩, ⟨.pad, 2⟩, ⟨.pascal, 4⟩,
        ⟨.int16, 1⟩]).unpack #[1, 7, 1, 0, 0, 3, 1, 2, 3, 0xfe, 0xff] =
          .ok [.bytes [7], .bool true, .bytes [1, 2, 3], .int (-2)] := by
  obtain ⟨canon, hpack, -, hread, -⟩ := packWith_unpack .standard "S ? 2x 4p h"
    (ofFields "S ? 2x 4p h" [⟨.dynamic, 1⟩, ⟨.bool, 1⟩, ⟨.pad, 2⟩, ⟨.pascal, 4⟩, ⟨.int16, 1⟩])
    rfl #[1, 7, 5, 9, 9, 200, 1, 2, 3, 0xfe, 0xff]
    [.bytes [7], .bool true, .bytes [1, 2, 3], .int (-2)] (by decide +kernel)
  have hcanon : canon = #[1, 7, 1, 0, 0, 3, 1, 2, 3, 0xfe, 0xff] :=
    Except.ok.inj ((hpack .strict).symm.trans (by decide +kernel))
  rw [hcanon] at hpack hread
  exact ⟨hpack .strict, hread⟩

end Layout

end PackedRecord
