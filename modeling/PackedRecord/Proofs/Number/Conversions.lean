import Mathlib
import PackedRecord.Float.Binary

/-!
# Narrowing undoes widening

A number that is a whole number of units of a format has a code of that format, and rounding to the
nearest code finds it: `FloatFormat.nearest_units`.  Every finite binary32 number is such a number
of binary64 units (`exists_units_double`), so that widening it loses nothing, and narrowing it again
brings back the same bits (`Binary64.narrow_widen`).

The two conversions make a NaN quiet and keep the rest of what fits its payload.  With
`Binary32.quiet` for that, the laws hold of all numbers, NaNs among them: narrowing a widened number
gives the quiet one, widening does not see the difference, and what narrowing gives is quiet.
-/

namespace PackedRecord

namespace FloatFormat

variable (f : FloatFormat)

/-! ## Codes of exact magnitudes -/

/-- A quotient without remainder is not rounded. -/
lemma roundHalfEven_exact {den : ℕ} (hden : 0 < den) (q : ℕ) :
    roundHalfEven (q * den) den = q := by
  simp [roundHalfEven, Nat.mul_div_cancel q hden, hden]

/-- The code of a magnitude with mantissa `a` and exponent `b`. -/
lemma units_code {a b : ℕ} (hlow : 2 ^ f.fraction ≤ a) (hhigh : a < 2 ^ (f.fraction + 1)) :
    f.units ((b + 1) * 2 ^ f.fraction + (a - 2 ^ f.fraction)) = a * 2 ^ b := by
  have hpos : 0 < 2 ^ f.fraction := by positivity
  have hrest : a - 2 ^ f.fraction < 2 ^ f.fraction := by
    rw [pow_succ] at hhigh
    omega
  have hdiv : ((b + 1) * 2 ^ f.fraction + (a - 2 ^ f.fraction)) / 2 ^ f.fraction = b + 1 := by
    rw [Nat.add_comm, Nat.add_mul_div_right _ _ hpos, Nat.div_eq_of_lt hrest, Nat.zero_add]
  have hmod : ((b + 1) * 2 ^ f.fraction + (a - 2 ^ f.fraction)) % 2 ^ f.fraction =
      a - 2 ^ f.fraction := by
    rw [Nat.add_comm, Nat.add_mul_mod_self_right, Nat.mod_eq_of_lt hrest]
  simp only [units, Nat.pow_eq, hdiv, hmod, Nat.succ_ne_zero, if_false, Nat.add_sub_cancel,
    Nat.sub_add_cancel hlow]

/-- Every code is that of a mantissa and an exponent, unless it is below the least of those. -/
lemma units_cases (c : ℕ) :
    (c < 2 ^ f.fraction ∧ f.units c = c) ∨
      ∃ a b, 2 ^ f.fraction ≤ a ∧ a < 2 ^ (f.fraction + 1) ∧
        c = (b + 1) * 2 ^ f.fraction + (a - 2 ^ f.fraction) ∧ f.units c = a * 2 ^ b := by
  have hpos : 0 < 2 ^ f.fraction := by positivity
  rcases Nat.lt_or_ge c (2 ^ f.fraction) with hlt | hge
  · left
    refine ⟨hlt, ?_⟩
    simp [units, Nat.div_eq_of_lt hlt]
  · right
    have hdiv : 1 ≤ c / 2 ^ f.fraction := (Nat.one_le_div_iff hpos).mpr hge
    have hmod := Nat.mod_lt c hpos
    have hsplit := Nat.div_add_mod c (2 ^ f.fraction)
    refine ⟨c % 2 ^ f.fraction + 2 ^ f.fraction, c / 2 ^ f.fraction - 1, by omega, ?_, ?_, ?_⟩
    · rw [pow_succ]
      omega
    · rw [Nat.sub_add_cancel hdiv, Nat.add_sub_cancel, mul_comm]
      exact hsplit.symm
    · have hne : c / 2 ^ f.fraction ≠ 0 := by omega
      simp only [units, Nat.pow_eq, hne, if_false]

/-- **Exact magnitudes round to their own code.** -/
theorem nearest_units {c den : ℕ} (hc : c < f.infinity) (hden : 0 < den) :
    f.nearest (f.units c * den) den = c := by
  have hmin : min c f.infinity = c := min_eq_left hc.le
  rcases f.units_cases c with ⟨hlt, hunits⟩ | ⟨a, b, hlow, hhigh, hcode, hunits⟩
  · -- Below the least mantissa the exponent is zero and the code counts units.
    have hlog : Nat.log2 c - f.fraction = 0 := by
      rcases Nat.eq_zero_or_pos c with rfl | hpos
      · simp
      · have := (Nat.log2_lt hpos.ne').mpr hlt
        omega
    simp only [nearest, hunits, Nat.mul_div_cancel _ hden, hlog, Nat.pow_eq, pow_zero, mul_one,
      Nat.zero_mul, Nat.zero_add, roundHalfEven_exact hden, hmin]
  · have hapos : 0 < a := lt_of_lt_of_le (by positivity) hlow
    have hlog : Nat.log2 (a * 2 ^ b) - f.fraction = b := by
      have hne : a * 2 ^ b ≠ 0 := by positivity
      have heq : Nat.log2 (a * 2 ^ b) = f.fraction + b := by
        rw [Nat.log2_eq_iff hne]
        constructor
        · rw [pow_add]
          exact Nat.mul_le_mul_right _ hlow
        · rw [show f.fraction + b + 1 = f.fraction + 1 + b by omega, pow_add]
          exact Nat.mul_lt_mul_of_pos_right hhigh (by positivity)
      omega
    have hround : roundHalfEven (a * 2 ^ b * den) (den * 2 ^ b) = a := by
      rw [mul_assoc, mul_comm (2 ^ b) den]
      exact roundHalfEven_exact (by positivity) a
    have hsum : b * 2 ^ f.fraction + a = c := by
      rw [hcode, Nat.succ_mul]
      omega
    simp only [nearest, hunits, Nat.mul_div_cancel _ hden, hlog, Nat.pow_eq, hround, hsum, hmin]

lemma nearest_le_infinity (num den : ℕ) : f.nearest num den ≤ f.infinity :=
  min_le_right _ _

end FloatFormat

/-! ## Finite binary32 numbers in binary64 -/

@[simp] lemma single_infinity : FloatFormat.single.infinity = 0x7f800000 := rfl

@[simp] lemma double_infinity : FloatFormat.double.infinity = 0x7ff0000000000000 := rfl

lemma unitRatio_eq : Binary64.unitRatio = 2 ^ 925 := by decide +kernel

/-- A mantissa of at most 24 bits has a code of binary64, wherever binary32 puts its exponent. -/
lemma exists_code_double {p j : ℕ} (hp : p < 2 ^ 24) (hj : j ≤ 253) :
    ∃ c, c < FloatFormat.double.infinity ∧
      FloatFormat.double.units c = p * 2 ^ j * Binary64.unitRatio := by
  rcases Nat.eq_zero_or_pos p with rfl | hpos
  · exact ⟨0, by simp, by simp [FloatFormat.units]⟩
  · -- Move the leading bit of the mantissa to the place that binary64 has for it.
    set e := Nat.log2 p with he
    have hlow : 2 ^ e ≤ p := Nat.log2_self_le hpos.ne'
    have hhigh : p < 2 ^ (e + 1) := Nat.lt_log2_self
    have hle : e ≤ 23 := by
      have := (Nat.log2_lt hpos.ne').mpr hp
      omega
    have hfraction : FloatFormat.double.fraction = 52 := rfl
    have hlow' : 2 ^ 52 ≤ p * 2 ^ (52 - e) := by
      calc
        2 ^ 52 = 2 ^ e * 2 ^ (52 - e) := by rw [← pow_add]; congr 1; omega
        _ ≤ p * 2 ^ (52 - e) := Nat.mul_le_mul_right _ hlow
    have hhigh' : p * 2 ^ (52 - e) < 2 ^ (52 + 1) := by
      calc
        p * 2 ^ (52 - e) < 2 ^ (e + 1) * 2 ^ (52 - e) :=
          Nat.mul_lt_mul_of_pos_right hhigh (by positivity)
        _ = 2 ^ (52 + 1) := by rw [← pow_add]; congr 1; omega
    refine ⟨(j + 873 + e + 1) * 2 ^ 52 + (p * 2 ^ (52 - e) - 2 ^ 52), ?_, ?_⟩
    · rw [double_infinity]
      omega
    · have hcode := FloatFormat.units_code .double (a := p * 2 ^ (52 - e)) (b := j + 873 + e)
        hlow' hhigh'
      rw [hfraction] at hcode
      rw [hcode, unitRatio_eq, mul_assoc, ← pow_add, mul_assoc, ← pow_add]
      congr 2
      omega

/-- The finite magnitudes of binary32 are magnitudes of binary64. -/
lemma exists_units_double {m : ℕ} (hm : m < FloatFormat.single.infinity) :
    ∃ c, c < FloatFormat.double.infinity ∧
      FloatFormat.double.units c = FloatFormat.single.units m * Binary64.unitRatio := by
  have hfraction : FloatFormat.single.fraction = 23 := rfl
  rw [single_infinity] at hm
  rcases FloatFormat.single.units_cases m with ⟨hlt, hunits⟩ | ⟨a, b, hlow, hhigh, hcode, hunits⟩
  · rw [hfraction] at hlt
    simpa [hunits] using exists_code_double (p := m) (j := 0) (by omega) (by omega)
  · rw [hfraction] at hlow hhigh hcode
    rw [hunits]
    exact exists_code_double hhigh (by omega)

/-- Widening a finite magnitude and rounding it to binary32 again is the identity. -/
lemma nearest_single_double {m : ℕ} (hm : m < FloatFormat.single.infinity) :
    FloatFormat.double.nearest (FloatFormat.single.units m * Binary64.unitRatio) 1 <
        FloatFormat.double.infinity ∧
      FloatFormat.single.nearest (FloatFormat.double.units
        (FloatFormat.double.nearest (FloatFormat.single.units m * Binary64.unitRatio) 1))
          Binary64.unitRatio = m := by
  obtain ⟨c, hc, hunits⟩ := exists_units_double hm
  have hnearest : FloatFormat.double.nearest (FloatFormat.single.units m * Binary64.unitRatio) 1
      = c := by
    have h := FloatFormat.nearest_units .double hc Nat.one_pos
    rwa [mul_one, hunits] at h
  have hratio : 0 < Binary64.unitRatio := by
    rw [unitRatio_eq]
    positivity
  rw [hnearest, hunits]
  exact ⟨hc, FloatFormat.nearest_units .single hm hratio⟩

/-! ## Signs and magnitudes -/

namespace Binary32

lemma magnitude_lt (x : Binary32) : x.magnitude < 0x80000000 :=
  Nat.mod_lt _ (by norm_num)

lemma ofParts_self (x : Binary32) : ofParts x.negative x.magnitude = x := by
  obtain ⟨bits⟩ := x
  have hlt := bits.toNat_lt
  unfold ofParts negative magnitude
  congr 1
  apply UInt32.toNat_inj.mp
  rw [UInt32.toNat_ofNat']
  by_cases h : 0x80000000 ≤ bits.toNat
  · simp only [h, decide_true, Bool.toNat_true]
    omega
  · simp only [h, decide_false, Bool.toNat_false]
    omega

lemma toNat_ofParts (s : Bool) {m : ℕ} (hm : m < 0x80000000) :
    (ofParts s m).bits.toNat = s.toNat * 0x80000000 + m := by
  rw [ofParts, UInt32.toNat_ofNat']
  cases s <;> simp <;> omega

lemma negative_ofParts (s : Bool) {m : ℕ} (hm : m < 0x80000000) :
    (ofParts s m).negative = s := by
  rw [negative, toNat_ofParts s hm]
  cases s <;> simp; omega

lemma magnitude_ofParts (s : Bool) {m : ℕ} (hm : m < 0x80000000) :
    (ofParts s m).magnitude = m := by
  rw [magnitude, toNat_ofParts s hm]
  cases s <;> simp <;> omega

/-- A NaN with its quiet bit set; any other number as it is. -/
def quiet (x : Binary32) : Binary32 :=
  if x.isNaN then
    ofParts x.negative (FloatFormat.single.infinity + 0x400000 + x.magnitude % 0x400000)
  else x

lemma quiet_of_not_isNaN {x : Binary32} (h : x.isNaN = false) : x.quiet = x := by
  simp [quiet, h]

lemma isNaN_iff {x : Binary32} : x.isNaN = true ↔ 0x7f800000 < x.magnitude :=
  decide_eq_true_iff

@[simp] lemma isNaN_quiet (x : Binary32) : x.quiet.isNaN = x.isNaN := by
  cases h : x.isNaN with
  | false => rw [quiet_of_not_isNaN h, h]
  | true =>
    have hmod := Nat.mod_lt x.magnitude (show 0 < 0x400000 by norm_num)
    rw [isNaN_iff, quiet, h, if_pos rfl, single_infinity, magnitude_ofParts _ (by omega)]
    omega

end Binary32

namespace Binary64

lemma toNat_ofParts (s : Bool) {m : ℕ} (hm : m < 0x8000000000000000) :
    (ofParts s m).bits.toNat = s.toNat * 0x8000000000000000 + m := by
  rw [ofParts, UInt64.toNat_ofNat']
  cases s <;> simp <;> omega

lemma negative_ofParts (s : Bool) {m : ℕ} (hm : m < 0x8000000000000000) :
    (ofParts s m).negative = s := by
  rw [negative, toNat_ofParts s hm]
  cases s <;> simp; omega

lemma magnitude_ofParts (s : Bool) {m : ℕ} (hm : m < 0x8000000000000000) :
    (ofParts s m).magnitude = m := by
  rw [magnitude, toNat_ofParts s hm]
  cases s <;> simp <;> omega

lemma isNaN_iff {x : Binary64} : x.isNaN = true ↔ 0x7ff0000000000000 < x.magnitude :=
  decide_eq_true_iff

/-! ## The laws of the two conversions -/

/-- Narrowing a number that is not a NaN rounds its magnitude. -/
lemma narrow_ofParts (s : Bool) {m : ℕ} (hm : m ≤ 0x7ff0000000000000) :
    narrow (ofParts s m) = .ofParts s
      (FloatFormat.single.nearest (FloatFormat.double.units m) unitRatio) := by
  have hlt : m < 0x8000000000000000 := by omega
  have hnan : (ofParts s m).isNaN = false := by
    rw [← Bool.not_eq_true, isNaN_iff, magnitude_ofParts s hlt]
    omega
  rw [narrow, hnan, if_neg Bool.false_ne_true, negative_ofParts s hlt, magnitude_ofParts s hlt]

/-- **Narrowing undoes widening**, except that a NaN comes back quiet. -/
theorem narrow_widen (x : Binary32) : narrow (widen x) = x.quiet := by
  cases hnan : x.isNaN with
  | true =>
    have hlarge := Binary32.isNaN_iff.mp hnan
    have hsmall := x.magnitude_lt
    have hmod := Nat.mod_lt x.magnitude (show 0 < 0x400000 by norm_num)
    have hwide : widen x = ofParts x.negative
        (0x7ff0000000000000 + 0x8000000000000 + x.magnitude % 0x400000 * 0x20000000) := by
      rw [widen, hnan, if_pos rfl, double_infinity]
    have hlt : 0x7ff0000000000000 + 0x8000000000000 + x.magnitude % 0x400000 * 0x20000000 <
        0x8000000000000000 := by omega
    have hisNaN : (widen x).isNaN = true := by
      rw [isNaN_iff, hwide, magnitude_ofParts _ hlt]
      omega
    rw [narrow, hisNaN, if_pos rfl, hwide, negative_ofParts _ hlt, magnitude_ofParts _ hlt,
      Binary32.quiet, hnan, if_pos rfl]
    congr 2
    omega
  | false =>
    rw [Binary32.quiet_of_not_isNaN hnan]
    have hle : x.magnitude ≤ 0x7f800000 := by
      by_contra hlarge
      have := Binary32.isNaN_iff.mpr (not_le.mp hlarge)
      rw [hnan] at this
      cases this
    by_cases hinf : x.magnitude = FloatFormat.single.infinity
    · have hwide : widen x = ofParts x.negative 0x7ff0000000000000 := by
        rw [widen, hnan, if_neg Bool.false_ne_true, if_pos hinf, double_infinity]
      have hround : FloatFormat.single.nearest
          (FloatFormat.double.units 0x7ff0000000000000) unitRatio =
          FloatFormat.single.infinity := by decide +kernel
      rw [hwide, narrow_ofParts _ le_rfl, hround, ← hinf, Binary32.ofParts_self]
    · have hfinite : x.magnitude < FloatFormat.single.infinity := by
        rw [single_infinity] at hinf ⊢
        omega
      obtain ⟨hlt, hback⟩ := nearest_single_double hfinite
      have hwide : widen x = ofParts x.negative
          (FloatFormat.double.nearest (FloatFormat.single.units x.magnitude * unitRatio) 1) := by
        rw [widen, hnan, if_neg Bool.false_ne_true, if_neg hinf]
      rw [hwide, narrow_ofParts _ (by rw [double_infinity] at hlt; omega), hback,
        Binary32.ofParts_self]

/-- A NaN and its quiet form widen to the same number. -/
theorem widen_quiet (x : Binary32) : widen x.quiet = widen x := by
  cases hnan : x.isNaN with
  | false => rw [Binary32.quiet_of_not_isNaN hnan]
  | true =>
    have hmod := Nat.mod_lt x.magnitude (show 0 < 0x400000 by norm_num)
    have hlt : 0x7f800000 + 0x400000 + x.magnitude % 0x400000 < 0x80000000 := by omega
    have hquiet : x.quiet = .ofParts x.negative
        (0x7f800000 + 0x400000 + x.magnitude % 0x400000) := by
      rw [Binary32.quiet, hnan, if_pos rfl, single_infinity]
    have hisNaN : x.quiet.isNaN = true := by rw [Binary32.isNaN_quiet, hnan]
    rw [widen, hisNaN, if_pos rfl, widen, hnan, if_pos rfl, hquiet,
      Binary32.negative_ofParts _ hlt, Binary32.magnitude_ofParts _ hlt]
    congr 3
    omega

/-- What narrowing gives is quiet. -/
theorem quiet_narrow (x : Binary64) : (narrow x).quiet = narrow x := by
  cases hnan : x.isNaN with
  | true =>
    have hmod := Nat.mod_lt (x.magnitude / 0x20000000) (show 0 < 0x400000 by norm_num)
    have hlt : 0x7f800000 + 0x400000 + x.magnitude / 0x20000000 % 0x400000 < 0x80000000 := by
      omega
    have hnarrow : narrow x = .ofParts x.negative
        (0x7f800000 + 0x400000 + x.magnitude / 0x20000000 % 0x400000) := by
      rw [narrow, hnan, if_pos rfl, single_infinity]
    have hisNaN : (narrow x).isNaN = true := by
      rw [Binary32.isNaN_iff, hnarrow, Binary32.magnitude_ofParts _ hlt]
      omega
    rw [Binary32.quiet, hisNaN, if_pos rfl, hnarrow, Binary32.negative_ofParts _ hlt,
      Binary32.magnitude_ofParts _ hlt, single_infinity]
    congr 1
    omega
  | false =>
    have hle := FloatFormat.nearest_le_infinity .single
      (FloatFormat.double.units x.magnitude) unitRatio
    rw [single_infinity] at hle
    have hisNaN : (narrow x).isNaN = false := by
      rw [← Bool.not_eq_true, Binary32.isNaN_iff, narrow, hnan, if_neg Bool.false_ne_true,
        Binary32.magnitude_ofParts _ (by omega)]
      omega
    exact Binary32.quiet_of_not_isNaN hisNaN

end Binary64

end PackedRecord
