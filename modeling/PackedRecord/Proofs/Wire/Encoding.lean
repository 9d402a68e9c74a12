import Mathlib
import PackedRecord.Packing
import PackedRecord.Proofs.Layout.Placement
import PackedRecord.Proofs.Number.Words

/-!
# The encoding of a record

What a record looks like on the wire has a description that knows nothing of buffers and offsets.
Each field has an encoding of its own (`Slot.encoding?`), a list of bytes that depends on its tag,
its count and its value alone, and a record is the encodings of its fields one after the other
(`Encodes`), where a pad is as many zeros as its count says and takes no value.

The bytes that the writer has for a field are the front of its encoding, and zeros are the rest
(`Slot.encoding?_of_payload`).  A policy decides only whether a value is taken at all, never how it
is encoded.
-/

namespace PackedRecord

/-! ## Zero filling -/

/-- The first `n` bytes, and zeros where there are fewer. -/
def zeroFilled (n : ℕ) (bs : List UInt8) : List UInt8 :=
  bs.take n ++ List.replicate (n - bs.length) 0

@[simp] lemma length_zeroFilled (n : ℕ) (bs : List UInt8) : (zeroFilled n bs).length = n := by
  simp only [zeroFilled, List.length_append, List.length_take, List.length_replicate]
  omega

lemma zeroFilled_of_length_le {n : ℕ} {bs : List UInt8} (h : bs.length ≤ n) :
    zeroFilled n bs = bs ++ List.replicate (n - bs.length) 0 := by
  rw [zeroFilled, List.take_of_length_le h]

@[simp] lemma zeroFilled_length (bs : List UInt8) : zeroFilled bs.length bs = bs := by
  simp [zeroFilled]

@[simp] lemma zeroFilled_succ_cons (n : ℕ) (b : UInt8) (bs : List UInt8) :
    zeroFilled (n + 1) (b :: bs) = b :: zeroFilled n bs := by
  simp [zeroFilled]

lemma take_zeroFilled {n : ℕ} {bs : List UInt8} (h : bs.length ≤ n) :
    (zeroFilled n bs).take bs.length = bs := by
  rw [zeroFilled_of_length_le h, List.take_left]

@[simp] lemma zeroFilled_take (n : ℕ) (bs : List UInt8) :
    zeroFilled n (bs.take n) = zeroFilled n bs := by
  rcases Nat.le_total bs.length n with h | h
  · rw [List.take_of_length_le h]
  · simp [zeroFilled, h]

/-! ## Length bytes -/

lemma toNat_ofNat_le {n : ℕ} (h : n ≤ maxStringLength) : (UInt8.ofNat n).toNat = n := by
  unfold maxStringLength at h
  rw [UInt8.toNat_ofNat', Nat.mod_eq_of_lt (by omega)]

/-- A length that the string has, the capacity allows and the length byte can say finds the content
again. -/
lemma counted (bs : List UInt8) {n k : ℕ} (hbs : n ≤ bs.length) (hk : n ≤ k)
    (hmax : n ≤ maxStringLength) :
    (UInt8.ofNat n).toNat = n ∧ (bs.take n).length = n ∧
      (zeroFilled k (bs.take n)).take n = bs.take n := by
  have hlength : (bs.take n).length = n := by
    rw [List.length_take]
    omega
  have hcontent : (zeroFilled k (bs.take n)).take (bs.take n).length = bs.take n :=
    take_zeroFilled (by omega)
  rw [hlength] at hcontent
  exact ⟨toNat_ofNat_le hmax, hlength, hcontent⟩

/-! ## Kinds, widths and ranges -/

lemma Tag.width_le (t : Tag) : t.width ≤ 8 := by
  cases t <;> decide

lemma Tag.width_pos {t : Tag} (h : t.kind = .signedInt ∨ t.kind = .unsignedInt) : 1 ≤ t.width := by
  cases t <;> simp_all [Tag.kind, Tag.width]

lemma Tag.eq_dynamic_iff {t : Tag} : t = .dynamic ↔ t.kind = .dynamicString := by
  cases t <;> decide

lemma Tag.hasValue_eq_false_iff {t : Tag} : t.hasValue = false ↔ t.kind = .pad := by
  cases t <;> decide

lemma FieldKind.range_signedInt (w : ℕ) :
    FieldKind.signedInt.range w = (-2 ^ (8 * w - 1), 2 ^ (8 * w - 1) - 1) := by
  simp [range]

lemma FieldKind.range_unsignedInt (w : ℕ) :
    FieldKind.unsignedInt.range w = (0, 2 ^ (8 * w) - 1) := by
  simp [range]

lemma Tag.range_of_signed {t : Tag} (h : t.kind = .signedInt) :
    t.range = (-2 ^ (8 * t.width - 1), 2 ^ (8 * t.width - 1) - 1) := by
  rw [range, h, FieldKind.range_signedInt]

lemma Tag.range_of_unsigned {t : Tag} (h : t.kind = .unsignedInt) :
    t.range = (0, 2 ^ (8 * t.width) - 1) := by
  rw [range, h, FieldKind.range_unsignedInt]

/-- The static bytes of a slot, by its kind. -/
lemma Slot.size_of_proper {s : Slot} (h : s.field.Proper) :
    s.size =
      match s.tag.kind with
      | .signedInt | .unsignedInt => s.tag.width
      | .float32 => 4
      | .float64 => 8
      | .bool | .char => 1
      | .fixedBytes | .pascalString | .pad => s.count
      | .dynamicString => 0 := by
  obtain ⟨t, count, offset⟩ := s
  cases t <;> simp_all [Slot.size, Slot.field, Field.Proper, Tag.kind, Tag.width]

lemma Slot.size_of_dynamic {s : Slot} (h : s.field.Proper) (hs : s.tag = .dynamic) :
    s.size = 0 := by
  have hsize := s.size_of_proper h
  simpa [Tag.eq_dynamic_iff.mp hs] using hsize

lemma Slot.size_of_pad {s : Slot} (h : s.field.Proper) (hs : s.tag.hasValue = false) :
    s.size = s.count := by
  have hsize := s.size_of_proper h
  simpa [Tag.hasValue_eq_false_iff.mp hs] using hsize

/-! ## The encoding of a field -/

/-- A function applied to a result does not make up for a fault. -/
lemma map_eq_ok {ε α β : Type} {f : α → β} {x : Except ε α} {b : β} (h : x.map f = .ok b) :
    ∃ a, x = .ok a ∧ f a = b := by
  cases x with
  | error e => cases h
  | ok a => exact ⟨a, rfl, Except.ok.inj h⟩

lemma map_eq_error {ε α β : Type} {f : α → β} {x : Except ε α} {e : ε} (h : x.map f = .error e) :
    x = .error e := by
  cases x with
  | error e' => rw [Except.error.inj h]
  | ok a => cases h

namespace Slot

/-- The bytes of a field with a value, where the value is of a kind that the field takes. -/
def encoding? (s : Slot) (v : Value) : Option (List UInt8) :=
  match s.tag.kind with
  | .signedInt | .unsignedInt =>
    v.integer?.map fun x => Word.digits s.tag.width (x % 2 ^ (8 * s.tag.width)).toNat
  | .float32 => v.number?.map fun x => Word.digits 4 (Binary64.narrow x).bits.toNat
  | .float64 => v.number?.map fun x => Word.digits 8 x.bits.toNat
  | .bool => some [if v.isTruthy then 1 else 0]
  | .char => v.bytes?.bind fun bs => if bs.length = 1 then some bs else none
  | .fixedBytes => v.bytes?.map fun bs => zeroFilled s.count bs
  | .pascalString =>
    v.bytes?.map fun bs =>
      if s.count = 0 then []
      else zeroFilled s.count (prefixed (min (min bs.length (s.count - 1)) maxStringLength) bs)
  | .dynamicString => v.bytes?.map fun bs => prefixed (min bs.length maxStringLength) bs
  | .pad => none

/-- How many bytes a field takes when the writer has `bytes` for it. -/
def extent (s : Slot) (bytes : List UInt8) : ℕ :=
  if s.tag = .dynamic then bytes.length else s.size

lemma length_prefixed {n : ℕ} {bs : List UInt8} (h : n ≤ bs.length) :
    (prefixed n bs).length = n + 1 := by
  simp [prefixed, h]

lemma bytes?_of_bytesOf {s : Slot} {v : Value} {bs : List UInt8} (h : s.bytesOf v = .ok bs) :
    v.bytes? = some bs := by
  unfold bytesOf at h
  split at h <;> simp_all

lemma number?_of_numberOf {s : Slot} {v : Value} {x : Binary64} (h : s.numberOf v = .ok x) :
    v.number? = some x := by
  unfold numberOf at h
  split at h <;> simp_all

/-- A policy that takes a long string cuts it to the longest length. -/
lemma dynamicLength_eq_ok {s : Slot} {policy : Policy} {bs : List UInt8} {n : ℕ}
    (h : s.dynamicLength policy bs = .ok n) : n = min bs.length maxStringLength := by
  unfold dynamicLength at h
  split at h
  · next hle =>
    rw [min_eq_left hle]
    exact (Except.ok.inj h).symm
  · next hlong =>
    split at h
    · rw [min_eq_right (by omega)]
      exact (Except.ok.inj h).symm
    · cases h

lemma dynamicLength_le {s : Slot} {policy : Policy} {bs : List UInt8} {n : ℕ}
    (h : s.dynamicLength policy bs = .ok n) : n ≤ bs.length := by
  rw [dynamicLength_eq_ok h]
  exact min_le_left _ _

/-- An integer is taken as a word, if it may wrap. -/
lemma integerWord_of_wrap {s : Slot} {policy : Policy} {v : Value} {x : ℤ}
    (hpolicy : policy.overflow = .wrap) (hx : v.integer? = some x) :
    s.integerWord policy v = .ok (Word.ofInt s.tag.width x) := by
  simp [integerWord, hx, hpolicy]

lemma integerWord_eq_ok {s : Slot} {policy : Policy} {v : Value} {bytes : List UInt8}
    (h : s.integerWord policy v = .ok bytes) :
    ∃ x, v.integer? = some x ∧
      bytes = Word.digits s.tag.width (x % 2 ^ (8 * s.tag.width)).toNat := by
  unfold integerWord at h
  split at h
  · cases h
  · next x hx =>
    have hwidth := s.tag.width_le
    refine ⟨x, hx, ?_⟩
    split at h
    · cases h
    · rw [← Except.ok.inj h, Word.ofInt_eq (by omega)]

/-- What is written for a dynamic string is counted by the first pass. -/
lemma payload_of_dynamic {s : Slot} (hs : s.tag = .dynamic) {policy : Policy} {v : Value}
    {bytes : List UInt8} (h : s.payload policy v = .ok bytes) :
    ∃ bs n, s.bytesOf v = .ok bs ∧ s.dynamicLength policy bs = .ok n ∧ bytes = prefixed n bs := by
  simp only [payload, Tag.eq_dynamic_iff.mp hs] at h
  cases hbs : s.bytesOf v with
  | error fault =>
    rw [hbs] at h
    cases h
  | ok bs =>
    rw [hbs] at h
    obtain ⟨n, hn, rfl⟩ := map_eq_ok h
    exact ⟨bs, n, rfl, hn, rfl⟩

/-- **What is written for a field is the front of its encoding**, and zeros fill the rest. -/
theorem encoding?_of_payload {s : Slot} (hs : s.field.Proper) (hvalue : s.tag.hasValue = true)
    {policy : Policy} {v : Value} {bytes : List UInt8} (h : s.payload policy v = .ok bytes) :
    bytes.length ≤ s.extent bytes ∧ s.encoding? v = some (zeroFilled (s.extent bytes) bytes) := by
  have hsize := size_of_proper hs
  have hdynamic : s.tag = .dynamic ↔ s.tag.kind = .dynamicString := Tag.eq_dynamic_iff
  -- Where a field is written whole, nothing is left to fill.
  have whole {bs : List UInt8} (hlen : bs.length = s.extent bs) :
      bs.length ≤ s.extent bs ∧ some bs = some (zeroFilled (s.extent bs) bs) := by
    rw [← hlen, zeroFilled_length]
    exact ⟨le_rfl, rfl⟩
  unfold encoding?
  cases hk : s.tag.kind with
  | signedInt | unsignedInt =>
    simp only [payload, hk] at h
    simp only [hk] at hsize hdynamic ⊢
    obtain ⟨x, hx, rfl⟩ := integerWord_eq_ok h
    rw [hx]
    exact whole (by simp [extent, hdynamic, hsize])
  | float32 =>
    simp only [payload, hk] at h
    simp only [hk] at hsize hdynamic ⊢
    obtain ⟨x, hx, rfl⟩ := map_eq_ok h
    rw [number?_of_numberOf hx]
    exact whole (by simp [extent, hdynamic, hsize])
  | float64 =>
    simp only [payload, hk] at h
    simp only [hk] at hsize hdynamic ⊢
    obtain ⟨x, hx, rfl⟩ := map_eq_ok h
    rw [number?_of_numberOf hx]
    exact whole (by simp [extent, hdynamic, hsize])
  | bool =>
    simp only [payload, hk] at h
    simp only [hk] at hsize hdynamic ⊢
    obtain rfl := Except.ok.inj h
    exact whole (by simp [extent, hdynamic, hsize])
  | char =>
    simp only [payload, hk] at h
    simp only [hk] at hsize hdynamic ⊢
    split at h
    · next b hb =>
      obtain rfl := Except.ok.inj h
      rw [hb]
      exact whole (by simp [extent, hdynamic, hsize])
    · cases h
  | fixedBytes =>
    simp only [payload, hk] at h
    simp only [hk] at hsize hdynamic ⊢
    obtain ⟨bs, hbs, rfl⟩ := map_eq_ok h
    rw [bytes?_of_bytesOf hbs]
    simp [extent, hdynamic, hsize]
  | pascalString =>
    simp only [payload, hk] at h
    simp only [hk] at hsize hdynamic ⊢
    obtain ⟨bs, hbs, rfl⟩ := map_eq_ok h
    rw [bytes?_of_bytesOf hbs]
    by_cases hzero : s.count = 0
    · simp [extent, hdynamic, hsize, hzero, zeroFilled]
    · have hlen : (prefixed (min (min bs.length (s.count - 1)) maxStringLength) bs).length =
          min (min bs.length (s.count - 1)) maxStringLength + 1 := length_prefixed (by omega)
      simp only [hzero, if_false, extent, hdynamic, hsize, Option.map_some, reduceCtorEq]
      exact ⟨by omega, trivial⟩
  | dynamicString =>
    simp only [hk] at hdynamic ⊢
    obtain ⟨bs, n, hbs, hn, rfl⟩ := payload_of_dynamic (hdynamic.mpr trivial) h
    obtain rfl := dynamicLength_eq_ok hn
    rw [bytes?_of_bytesOf hbs]
    exact whole (by simp [extent, hdynamic])
  | pad =>
    rw [Tag.hasValue_iff] at hvalue
    exact absurd hk hvalue

end Slot

/-! ## The encoding of a record -/

/-- The pieces of a record: the values go to the fields that take one, in order, and every field
has one piece. -/
inductive Encodes : List Slot → List Value → List (List UInt8) → Prop
  | nil : Encodes [] [] []
  | pad {s : Slot} {slots : List Slot} {values : List Value} {pieces : List (List UInt8)}
      (hs : s.tag.hasValue = false) (hrest : Encodes slots values pieces) :
      Encodes (s :: slots) values (List.replicate s.count 0 :: pieces)
  | field {s : Slot} {slots : List Slot} {v : Value} {values : List Value}
      {piece : List UInt8} {pieces : List (List UInt8)}
      (hs : s.tag.hasValue = true) (hpiece : s.encoding? v = some piece)
      (hrest : Encodes slots values pieces) :
      Encodes (s :: slots) (v :: values) (piece :: pieces)

end PackedRecord
