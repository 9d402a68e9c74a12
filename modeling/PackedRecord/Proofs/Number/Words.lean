import Mathlib
import PackedRecord.Word

/-!
# Words are arithmetic modulo a power of two

The bytes of a word are the base-256 digits of a residue, and reading them back gives the residue:
`Word.digits` and `Word.ofDigits` are inverse to each other (`Word.digits_ofDigits`,
`Word.ofDigits_digits`).  For integers of either sign this says that `w` bytes carry exactly the
residue modulo `2 ^ (8 * w)`.  Cutting the 128-bit form to `w` bytes writes it (`Word.ofInt_eq`);
the 64-bit form is it (`Word.toNat_toUInt64`); and moving it to the top of the 64 bits and back
gives the one integer of that residue between `-2 ^ (8 * w - 1)` and `2 ^ (8 * w - 1)`, which is
`Int.bmod` (`Word.toInt_signExtend`, `Word.eq_bmod_iff`).
-/

namespace PackedRecord.Word

/-! ## Digits -/

lemma pow_256 (w : ℕ) : 256 ^ w = 2 ^ (8 * w) := by
  rw [pow_mul]
  norm_num

lemma digits_add (v w n : ℕ) : digits (v + w) n = digits v n ++ digits w (n / 256 ^ v) := by
  induction v generalizing n with
  | zero => simp [digits]
  | succ v ih =>
    rw [Nat.succ_add, digits, digits, ih, Nat.div_div_eq_div_mul, pow_succ', List.cons_append]

lemma take_digits {v w : ℕ} (h : v ≤ w) (n : ℕ) : (digits w n).take v = digits v n := by
  obtain ⟨k, rfl⟩ := Nat.exists_eq_add_of_le h
  rw [digits_add, List.take_left' (length_digits v n)]

/-- The digits of a number are those of its residue. -/
lemma digits_mod (w n : ℕ) : digits w (n % 256 ^ w) = digits w n := by
  induction w generalizing n with
  | zero => rfl
  | succ w ih =>
    rw [digits, digits]
    congr 1
    · rw [pow_succ', Nat.mod_mul_right_mod]
    · rw [pow_succ', Nat.mod_mul_right_div_self, ih]

lemma digits_ofDigits (bs : List UInt8) : digits bs.length (ofDigits bs) = bs := by
  induction bs with
  | nil => rfl
  | cons b bs ih =>
    have hb : b.toNat < 256 := b.toNat_lt
    have hmod : (b.toNat + 256 * ofDigits bs) % 256 = b.toNat := by omega
    have hdiv : (b.toNat + 256 * ofDigits bs) / 256 = ofDigits bs := by omega
    rw [List.length_cons, digits, ofDigits, hmod, hdiv, ih, UInt8.ofNat_toNat]

/-- `ofDigits_lt` with the power written as such. -/
lemma ofDigits_lt_pow (bs : List UInt8) : ofDigits bs < 2 ^ (8 * bs.length) := by
  have h := ofDigits_lt bs
  rwa [Nat.pow_eq, pow_256] at h

/-- `ofDigits_digits` with the power written as such. -/
lemma ofDigits_digits_pow (w n : ℕ) : ofDigits (digits w n) = n % 2 ^ (8 * w) := by
  have h := ofDigits_digits w n
  rwa [Nat.pow_eq, pow_256] at h

/-- A word of at most 64 bits is read as it stands. -/
lemma toNat_toUInt64 {bs : List UInt8} (h : bs.length ≤ 8) :
    (toUInt64 bs).toNat = ofDigits bs := by
  have hlt := ofDigits_lt_pow bs
  have hpow : 2 ^ (8 * bs.length) ≤ 2 ^ 64 := Nat.pow_le_pow_right (by norm_num) (by omega)
  rw [toUInt64, UInt64.toNat_ofNat', Nat.mod_eq_of_lt (by omega)]

/-! ## Integers of both signs -/

/-- The first bytes of the 128-bit two's complement are the digits of the residue. -/
lemma ofInt_eq {w : ℕ} (hw : w ≤ 16) (x : ℤ) :
    ofInt w x = digits w (x % 2 ^ (8 * w)).toNat := by
  have hdvd : ((2 ^ (8 * w) : ℕ) : ℤ) ∣ ((2 ^ 128 : ℕ) : ℤ) :=
    Int.natCast_dvd_natCast.mpr (Nat.pow_dvd_pow 2 (by omega))
  have hres : (x % ((2 ^ 128 : ℕ) : ℤ)).toNat % 256 ^ w = (x % 2 ^ (8 * w)).toNat := by
    rw [pow_256]
    apply Int.natCast_inj.mp
    have hpos : (0 : ℤ) < ((2 ^ 128 : ℕ) : ℤ) := by positivity
    have hpos' : (0 : ℤ) < 2 ^ (8 * w) := by positivity
    rw [Int.natCast_mod, Int.toNat_of_nonneg (Int.emod_nonneg _ hpos.ne'),
      Int.toNat_of_nonneg (Int.emod_nonneg _ hpos'.ne'), Int.emod_emod_of_dvd _ hdvd]
    push_cast
    rfl
  rw [ofInt, Nat.pow_eq, take_digits hw, ← digits_mod, hres]

/-- The amount of the two shifts, for each of the widths of a word. -/
lemma shift_eq {w : ℕ} (hw : 1 ≤ w) (hw' : w ≤ 8) :
    (UInt64.ofNat (64 - 8 * w)).toNat % 64 = 64 - 8 * w ∧
      ((UInt64.ofNat (64 - 8 * w)).toInt64.toBitVec.smod 64).toNat = 64 - 8 * w := by
  interval_cases w <;> decide

/-- **Sign extension is the balanced residue**, whatever stands above the low `w` bytes. -/
theorem toInt_signExtend {w : ℕ} (hw : 1 ≤ w) (hw' : w ≤ 8) (raw : UInt64) :
    (signExtend raw w).toInt = Int.bmod raw.toNat (2 ^ (8 * w)) := by
  obtain ⟨hleft, hright⟩ := shift_eq hw hw'
  have hsplit : 2 ^ 64 = 2 ^ (64 - 8 * w) * 2 ^ (8 * w) := by
    rw [← pow_add]
    congr 1
    omega
  have hup : (raw <<< UInt64.ofNat (64 - 8 * w)).toInt64.toInt =
      2 ^ (64 - 8 * w) * Int.bmod raw.toNat (2 ^ (8 * w)) := by
    calc
      (raw <<< UInt64.ofNat (64 - 8 * w)).toInt64.toInt
          = Int.bmod (raw <<< UInt64.ofNat (64 - 8 * w)).toNat (2 ^ 64) :=
        BitVec.toInt_eq_toNat_bmod _
      _ = Int.bmod (((2 ^ (64 - 8 * w) : ℕ) : ℤ) * raw.toNat)
            (2 ^ (64 - 8 * w) * 2 ^ (8 * w)) := by
        rw [UInt64.toNat_shiftLeft, hleft, Nat.shiftLeft_eq, Int.natCast_mod, Int.emod_bmod,
          hsplit, Int.natCast_mul, mul_comm]
      _ = 2 ^ (64 - 8 * w) * Int.bmod raw.toNat (2 ^ (8 * w)) := by
        rw [Int.mod_bmod_mul_of_pos _ _ (by positivity) (dvd_pow_self 2 (by omega))]
        push_cast
        rfl
  calc
    (signExtend raw w).toInt
        = (raw <<< UInt64.ofNat (64 - 8 * w)).toInt64.toInt >>> (64 - 8 * w) := by
      change ((raw <<< UInt64.ofNat (64 - 8 * w)).toInt64.toBitVec.sshiftRight
        ((UInt64.ofNat (64 - 8 * w)).toInt64.toBitVec.smod 64).toNat).toInt = _
      rw [hright, BitVec.toInt_sshiftRight]
      rfl
    _ = Int.bmod raw.toNat (2 ^ (8 * w)) := by
      rw [hup, Int.shiftRight_eq_div_pow]
      push_cast
      exact Int.mul_ediv_cancel_left _ (by positivity)

/-- The bytes of 32 bits are read back as they are. -/
lemma toUInt32_digits (x : UInt32) : (toUInt64 (digits 4 x.toNat)).toUInt32 = x := by
  rw [toUInt64, ofDigits_digits_pow, Nat.mod_eq_of_lt x.toNat_lt, UInt64.toUInt32_ofNat',
    UInt32.ofNat_toNat]

/-- The bytes of 64 bits are read back as they are. -/
lemma toUInt64_digits (x : UInt64) : toUInt64 (digits 8 x.toNat) = x := by
  rw [toUInt64, ofDigits_digits_pow, Nat.mod_eq_of_lt x.toNat_lt, UInt64.ofNat_toNat]

/-! ## Words of residues -/

/-- The residue of an integer is what its word stands for. -/
lemma ofDigits_residue (w : ℕ) (x : ℤ) :
    ofDigits (digits w (x % 2 ^ (8 * w)).toNat) = (x % 2 ^ (8 * w)).toNat := by
  have hlt : x % 2 ^ (8 * w) < 2 ^ (8 * w) := Int.emod_lt_of_pos _ (by positivity)
  rw [ofDigits_digits_pow, Nat.mod_eq_of_lt]
  zify
  rw [Int.toNat_of_nonneg (Int.emod_nonneg _ (by positivity))]
  exact hlt

/-- An unsigned word is read back as the residue. -/
lemma toUInt64_residue (w : ℕ) (x : ℤ) :
    toUInt64 (digits w (x % 2 ^ (8 * w)).toNat) = UInt64.ofNat (x % 2 ^ (8 * w)).toNat := by
  rw [toUInt64, ofDigits_residue]

/-- A signed word is read back as the balanced residue, here as an integer. -/
lemma toInt_signExtend_residue {w : ℕ} (hw : 1 ≤ w) (hw' : w ≤ 8) (x : ℤ) :
    (signExtend (toUInt64 (digits w (x % 2 ^ (8 * w)).toNat)) w).toInt =
      Int.bmod x (2 ^ (8 * w)) := by
  have hlength : (digits w (x % 2 ^ (8 * w)).toNat).length ≤ 8 := by
    rw [length_digits]
    exact hw'
  have hnonneg : 0 ≤ x % 2 ^ (8 * w) := Int.emod_nonneg _ (by positivity)
  have hcast : (2 : ℤ) ^ (8 * w) = ((2 ^ (8 * w) : ℕ) : ℤ) := by push_cast; rfl
  rw [toInt_signExtend hw hw', toNat_toUInt64 hlength, ofDigits_residue,
    Int.toNat_of_nonneg hnonneg, hcast, Int.emod_bmod]

/-- A signed word is read back as the balanced residue. -/
lemma signExtend_residue {w : ℕ} (hw : 1 ≤ w) (hw' : w ≤ 8) (x : ℤ) :
    signExtend (toUInt64 (digits w (x % 2 ^ (8 * w)).toNat)) w =
      Int64.ofInt (Int.bmod x (2 ^ (8 * w))) := by
  rw [← toInt_signExtend_residue hw hw', Int64.ofInt_toInt]

/-- The balanced residue modulo `2 ^ (8 * w)` is the one congruent integer in the signed range. -/
lemma eq_bmod_iff {w : ℕ} (hw : 1 ≤ w) {x y : ℤ} :
    y = Int.bmod x (2 ^ (8 * w)) ↔
      -2 ^ (8 * w - 1) ≤ y ∧ y < 2 ^ (8 * w - 1) ∧ y ≡ x [ZMOD 2 ^ (8 * w)] := by
  obtain ⟨k, hk⟩ : ∃ k, 8 * w = k + 1 := ⟨8 * w - 1, by omega⟩
  have hhalf : ((2 ^ (k + 1) : ℕ) : ℤ) = 2 * 2 ^ k := by
    push_cast
    ring
  rw [eq_comm, Int.bmod_eq_iff (by positivity), hk, Nat.add_sub_cancel, hhalf, Int.modEq_comm,
    Int.modEq_iff_dvd]
  have hdvd : (2 : ℤ) ^ (k + 1) = 2 * 2 ^ k := by ring
  rw [hdvd]
  constructor
  · rintro ⟨hlow, hhigh, hcong⟩
    exact ⟨by omega, by omega, hcong⟩
  · rintro ⟨hlow, hhigh, hcong⟩
    exact ⟨by omega, by omega, hcong⟩

end PackedRecord.Word
