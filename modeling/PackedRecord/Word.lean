/-!
# Little-endian words

A word of `w` bytes is a list of base-256 digits, least significant first.  An integer of either
sign is written through its 128-bit two's complement, of which a field keeps the first `w` bytes:
that is the residue modulo `256 ^ w`, whatever the sign.  A word is read back as a 64-bit number
and, in a signed field, shifted up to the top of the 64 bits and down again, so that its highest
bit becomes the sign.
-/

namespace PackedRecord.Word

/-! ## Digits -/

/-- The `w` least significant base-256 digits of `n`, least significant first. -/
def digits : Nat → Nat → List UInt8
  | 0, _ => []
  | w + 1, n => UInt8.ofNat (n % 256) :: digits w (n / 256)

/-- The number that a list of base-256 digits stands for. -/
def ofDigits : List UInt8 → Nat
  | [] => 0
  | b :: bs => b.toNat + 256 * ofDigits bs

@[simp] theorem length_digits (w n : Nat) : (digits w n).length = w := by
  induction w generalizing n with
  | zero => rfl
  | succ w ih => simp [digits, ih]

theorem ofDigits_lt (bs : List UInt8) : ofDigits bs < Nat.pow 256 bs.length := by
  induction bs with
  | nil => exact Nat.one_pos
  | cons b bs ih =>
    have hb : b.toNat < 256 := b.toNat_lt
    have hpow : Nat.pow 256 (b :: bs).length = Nat.pow 256 bs.length * 256 := rfl
    rw [ofDigits, hpow]
    omega

theorem ofDigits_digits (w n : Nat) : ofDigits (digits w n) = n % Nat.pow 256 w := by
  induction w generalizing n with
  | zero => exact (Nat.mod_one n).symm
  | succ w ih =>
    have hb : (UInt8.ofNat (n % 256)).toNat = n % 256 := by simp
    have hpow : Nat.pow 256 (w + 1) = 256 * Nat.pow 256 w := Nat.mul_comm _ _
    rw [digits, ofDigits, hb, ih, hpow, Nat.mod_mul]

/-! ## Integers of both signs -/

/-- The first `w` bytes of the 128-bit two's complement of `x`. -/
def ofInt (w : Nat) (x : Int) : List UInt8 :=
  (digits 16 (x % Nat.pow 2 128).toNat).take w

/-- The 64-bit number in the bytes of a word; a word has at most eight. -/
def toUInt64 (bs : List UInt8) : UInt64 :=
  UInt64.ofNat (ofDigits bs)

/-- The signed number in the low `w` bytes of `raw`, for `w` from 1 to 8: they are moved to the
top of the 64 bits and back down with copies of the sign. -/
def signExtend (raw : UInt64) (w : Nat) : Int64 :=
  let shift := UInt64.ofNat (64 - 8 * w)
  (raw <<< shift).toInt64 >>> shift.toInt64

end PackedRecord.Word
