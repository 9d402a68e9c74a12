import Mathlib
import PackedRecord.Proofs.Wire.Cursor

/-!
# Integers as residues

A word of `w` bytes carries an integer modulo `2 ^ (8 * w)` and nothing else of it.  Writing cuts
the 128-bit two's complement, and what is left are the digits of the residue to the base 256
(`Word.map_toNat_digits`, `Word.ofInt_eq`).  An unsigned field reads the residue itself
(`Word.toNat_toUInt64_ofInt`).  A signed one reads the integer of that residue that is closest to
zero (`Word.toInt_signExtend_ofInt`), and so it does with any 64 bits, of which only the lowest `w`
bytes count (`Word.signExtend_congr`).

An integer therefore comes back unchanged if it is the one that its residue is read as.  These are
the integers between the bounds of the field, for either kind of field: `FieldKind.range`.
-/

namespace PackedRecord

/-- The word that stands behind `front` is read as the number of its digits. -/
lemma wordAt_eq_ok {buffer : Array UInt8} {front word back : List UInt8}
    (hbuffer : buffer.toList = front ++ (word ++ back)) :
    wordAt buffer front.length word.length = .ok (Word.toUInt64 word) := by
  rw [wordAt, slice_eq_ok hbuffer rfl rfl]
  rfl

namespace Word

variable {w : ℕ}

/-! ## Digits -/

/-- The digits of a number, by division. -/
lemma map_toNat_digits (w n : ℕ) :
    (digits w n).map UInt8.toNat = (List.range w).map fun i => n / 256 ^ i % 256 := by
  induction w generalizing n with
  | zero => rfl
  | succ w ih =>
    have hfirst : (UInt8.ofNat (n % 256)).toNat = n / 256 ^ 0 % 256 := by simp
    have hrest : ∀ i, n / 256 / 256 ^ i = n / 256 ^ (i + 1) := by
      intro i
      rw [Nat.div_div_eq_div_mul, pow_succ']
    rw [digits, List.map_cons, ih, List.range_succ_eq_map, List.map_cons, List.map_map, hfirst]
    simp only [hrest, Function.comp_def, Nat.succ_eq_add_one]

/-! ## Writing and reading back -/

/-- An unsigned field reads the residue of the integer that was written. -/
lemma toNat_toUInt64_ofInt (hw : w ≤ 8) (x : ℤ) :
    ((toUInt64 (ofInt w x)).toNat : ℤ) = x % 2 ^ (8 * w) := by
  have hlength : (ofInt w x).length ≤ 8 := by
    rw [ofInt_eq (by omega), length_digits]
    exact hw
  rw [toNat_toUInt64 hlength, ofInt_eq (by omega), ofDigits_residue,
    Int.toNat_of_nonneg (Int.emod_nonneg _ (by positivity))]

/-- A signed field reads the balanced residue of the integer that was written. -/
lemma toInt_signExtend_ofInt (hw : 1 ≤ w) (hw' : w ≤ 8) (x : ℤ) :
    (signExtend (toUInt64 (ofInt w x)) w).toInt = Int.bmod x (2 ^ (8 * w)) := by
  rw [ofInt_eq (by omega), toInt_signExtend_residue hw hw']

/-- Sign extension is the one integer of the signed range that is congruent to the 64 bits. -/
lemma eq_signExtend_iff (hw : 1 ≤ w) (hw' : w ≤ 8) {raw : UInt64} {y : ℤ} :
    y = (signExtend raw w).toInt ↔
      -2 ^ (8 * w - 1) ≤ y ∧ y < 2 ^ (8 * w - 1) ∧ y ≡ raw.toNat [ZMOD 2 ^ (8 * w)] := by
  rw [toInt_signExtend hw hw']
  exact eq_bmod_iff hw

/-- Sign extension looks at the lowest `w` bytes only. -/
lemma signExtend_congr (hw : 1 ≤ w) (hw' : w ≤ 8) {raw raw' : UInt64}
    (h : raw.toNat % 2 ^ (8 * w) = raw'.toNat % 2 ^ (8 * w)) :
    signExtend raw w = signExtend raw' w := by
  have hresidue (raw : UInt64) : (signExtend raw w).toInt =
      Int.bmod ((raw.toNat % 2 ^ (8 * w) : ℕ) : ℤ) (2 ^ (8 * w)) := by
    rw [toInt_signExtend hw hw', Int.natCast_mod, Int.emod_bmod]
  rw [← Int64.toInt_inj, hresidue raw, hresidue raw', h]

/-! ## The integers that come back unchanged -/

/-- An unsigned field gives back the integers between its bounds. -/
lemma range_unsignedInt_iff (hw : w ≤ 8) (x : ℤ) :
    (FieldKind.unsignedInt.range w).1 ≤ x ∧ x ≤ (FieldKind.unsignedInt.range w).2 ↔
      ((toUInt64 (ofInt w x)).toNat : ℤ) = x := by
  rw [FieldKind.range_unsignedInt, toNat_toUInt64_ofInt hw]
  constructor
  · rintro ⟨hlow, hhigh⟩
    exact Int.emod_eq_of_lt hlow (Int.lt_of_le_sub_one hhigh)
  · intro hself
    have hlow : 0 ≤ x % 2 ^ (8 * w) := Int.emod_nonneg _ (by positivity)
    have hhigh : x % 2 ^ (8 * w) < 2 ^ (8 * w) := Int.emod_lt_of_pos _ (by positivity)
    rw [hself] at hlow hhigh
    exact ⟨hlow, Int.le_sub_one_of_lt hhigh⟩

/-- A signed field gives back the integers between its bounds. -/
lemma range_signedInt_iff (hw : 1 ≤ w) (hw' : w ≤ 8) (x : ℤ) :
    (FieldKind.signedInt.range w).1 ≤ x ∧ x ≤ (FieldKind.signedInt.range w).2 ↔
      (signExtend (toUInt64 (ofInt w x)) w).toInt = x := by
  rw [FieldKind.range_signedInt, toInt_signExtend_ofInt hw hw', eq_comm, eq_bmod_iff hw]
  constructor
  · rintro ⟨hlow, hhigh⟩
    exact ⟨hlow, Int.lt_of_le_sub_one hhigh, rfl⟩
  · rintro ⟨hlow, hhigh, -⟩
    exact ⟨hlow, Int.le_sub_one_of_lt hhigh⟩

/-- **The integers of a field are arithmetic modulo `2 ^ (8 * w)`.**  For words of one to eight
bytes: an integer that may wrap is written as the digits of its residue to the base 256, the least
significant first; a word that stands anywhere in a buffer is read as the number of its digits; sign
extension gives, of any 64 bits, the one integer from `-2 ^ (8 * w - 1)` up to but not including
`2 ^ (8 * w - 1)` that is congruent to them, whatever stands above the lowest `w` bytes; and the
range of a field consists of the integers that are read as they were written, from the word itself
in an unsigned field and from its sign extension in a signed one. -/
theorem integers_modulo (hw : 1 ≤ w) (hw' : w ≤ 8) :
    (∀ (s : Slot) (policy : Policy) (v : Value) (x : ℤ), s.tag.width = w →
        policy.overflow = .wrap → v.integer? = some x →
        s.integerWord policy v = .ok (ofInt w x)) ∧
      (∀ x : ℤ, (ofInt w x).map UInt8.toNat =
        (List.range w).map fun i => (x % 2 ^ (8 * w)).toNat / 256 ^ i % 256) ∧
      (∀ front word back : List UInt8, word.length = w →
        ∃ raw, wordAt (front ++ (word ++ back)).toArray front.length w = .ok raw ∧
          raw.toNat = littleEndian word) ∧
      (∀ (raw : UInt64) (y : ℤ), y = (signExtend raw w).toInt ↔
        -2 ^ (8 * w - 1) ≤ y ∧ y < 2 ^ (8 * w - 1) ∧ y ≡ raw.toNat [ZMOD 2 ^ (8 * w)]) ∧
      (∀ raw raw' : UInt64, raw.toNat % 2 ^ (8 * w) = raw'.toNat % 2 ^ (8 * w) →
        signExtend raw w = signExtend raw' w) ∧
      ∀ (x : ℤ) (front back : List UInt8),
        ∃ raw, wordAt (front ++ (ofInt w x ++ back)).toArray front.length w = .ok raw ∧
          ((FieldKind.unsignedInt.range w).1 ≤ x ∧ x ≤ (FieldKind.unsignedInt.range w).2 ↔
            (raw.toNat : ℤ) = x) ∧
          ((FieldKind.signedInt.range w).1 ≤ x ∧ x ≤ (FieldKind.signedInt.range w).2 ↔
            (signExtend raw w).toInt = x) := by
  refine ⟨?_, ?_, ?_, ?_, ?_, ?_⟩
  · rintro s policy v x rfl hpolicy hx
    exact Slot.integerWord_of_wrap hpolicy hx
  · intro x
    rw [ofInt_eq (by omega), map_toNat_digits]
  · rintro front word back rfl
    refine ⟨toUInt64 word, wordAt_eq_ok List.toList_toArray, ?_⟩
    rw [toNat_toUInt64 hw', ofDigits_eq]
  · intro raw y
    exact eq_signExtend_iff hw hw'
  · intro raw raw' h
    exact signExtend_congr hw hw' h
  · intro x front back
    have hlength : (ofInt w x).length = w := by rw [ofInt_eq (by omega), length_digits]
    have hread : wordAt (front ++ (ofInt w x ++ back)).toArray front.length (ofInt w x).length =
        .ok (toUInt64 (ofInt w x)) := wordAt_eq_ok List.toList_toArray
    rw [hlength] at hread
    exact ⟨toUInt64 (ofInt w x), hread, range_unsignedInt_iff hw' x,
      range_signedInt_iff hw hw' x⟩

/-- Words of three bytes, which no tag has: the integer below the least one wraps to the largest
one, and sign extension passes over what stands above the third byte. -/
theorem integers_modulo_three_bytes :
    (1 ≤ 3 ∧ 3 ≤ 8) ∧ (ofInt 3 (-8388609)).map UInt8.toNat = [0xff, 0xff, 0x7f] ∧
      ¬ (FieldKind.signedInt.range 3).1 ≤ -8388609 ∧
      (signExtend 0xab800000 3).toInt = -8388608 := by
  obtain ⟨-, hdigits, -, hextend, -, hrange⟩ := integers_modulo (w := 3) (by decide) (by decide)
  refine ⟨by decide, ?_, ?_, ?_⟩
  · rw [hdigits]
    decide
  · obtain ⟨raw, hread, -, hsigned⟩ := hrange (-8388609) [] []
    obtain rfl := Except.ok.inj hread
    intro hlow
    have hself := hsigned.mp ⟨hlow, by decide⟩
    exact absurd hself (by decide)
  · exact ((hextend 0xab800000 (-8388608)).mpr ⟨by decide, by decide, by decide⟩).symm

end Word

end PackedRecord
