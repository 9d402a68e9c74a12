import Mathlib
import PackedRecord.Json.Reader
import PackedRecord.Json.Writer

/-!
# Numbers and strings are read as they were written

Every reader of a part of a document is given the characters of the part with more behind them, and
is to answer what was written and what is behind.

A string ends with a mark of its own.  A number does not: it ends where the next character can be no
part of it (`Json.Stops`).  `Numeral.Proper` are the numbers that the grammar admits, and
`Numeral.digits` writes a natural number as one.
-/

namespace PackedRecord

/-! ## Numbers that the grammar admits -/

namespace Numeral

/-- Digits in base ten, at least one. -/
def AreDigits (ds : List ℕ) : Prop := ds ≠ [] ∧ ∀ d ∈ ds, d < 10

/-- A number has digits before the point, and no zero in front of others; digits after the point, if
there is one; and a value that is not too large. -/
structure Proper (n : Numeral) : Prop where
  whole : AreDigits n.whole
  leading : n.whole.head? = some 0 → n.whole = [0]
  fraction : ∀ ds, n.fraction = some ds → AreDigits ds
  offered : n.offer?.isSome = true

/-- The digits that a natural number is written with. -/
def digits (n : ℕ) : List ℕ := (Nat.toDigits 10 n).map fun c => c.toNat - '0'.toNat

lemma digitChar_of_isDigit {c : Char} (hc : c.isDigit = true) :
    (c.toNat - '0'.toNat).digitChar = c := by
  have h := hc
  simp only [Char.isDigit, ge_iff_le, Bool.and_eq_true, decide_eq_true_eq] at h
  have low : 48 ≤ c.toNat := UInt32.le_iff_toNat_le.mp h.1
  have high : c.toNat ≤ 57 := UInt32.le_iff_toNat_le.mp h.2
  rw [← Char.ofNat_toNat c]
  generalize c.toNat = n at low high
  interval_cases n <;> decide

lemma sub_lt_of_isDigit {c : Char} (hc : c.isDigit = true) : c.toNat - '0'.toNat < 10 := by
  rw [← digitChar_of_isDigit hc] at hc
  simpa using hc

lemma map_digitChar_digits (n : ℕ) : (digits n).map Nat.digitChar = Nat.toDigits 10 n := by
  rw [digits, List.map_map]
  refine (List.map_congr_left ?_).trans (List.map_id _)
  intro c hc
  exact digitChar_of_isDigit (Nat.isDigit_of_mem_toDigits (by decide) (by decide) hc)

lemma areDigits_digits (n : ℕ) : AreDigits (digits n) := by
  refine ⟨?_, ?_⟩
  · simp [digits, Nat.toDigits_ne_nil]
  · intro d hd
    obtain ⟨c, hc, rfl⟩ := List.mem_map.mp hd
    exact sub_lt_of_isDigit (Nat.isDigit_of_mem_toDigits (by decide) (by decide) hc)

lemma ofDigits_digits (n : ℕ) : ofDigits (digits n) = n := by
  rw [ofDigits, digits, List.foldl_map]
  have h := Nat.ofDigitChars_toDigits (n := n) (b := 10) (by decide) (by decide)
  rw [Nat.ofDigitChars] at h
  simpa only [Nat.mul_comm] using h

/-- Only zero is written with a leading zero. -/
lemma head?_digits (n : ℕ) (h : (digits n).head? = some 0) : n = 0 := by
  induction n using Nat.strong_induction_on with
  | _ n ih =>
    rcases Nat.lt_or_ge n 10 with hlt | hge
    · rw [digits, Nat.toDigits_of_lt_base hlt] at h
      have hd : n.digitChar.toNat - '0'.toNat = 0 := by simpa using h
      rw [Nat.toNat_digitChar_of_lt_ten hlt] at hd
      change 48 + n - 48 = 0 at hd
      omega
    · rw [digits, Nat.toDigits_of_base_le (by decide) hge, List.map_append,
        List.head?_append_of_ne_nil _ (by simp [Nat.toDigits_ne_nil])] at h
      have hq := ih (n / 10) (by omega) h
      omega

end Numeral

namespace Json

open Numeral

/-! ## Reading numbers -/

/-- What is behind a number is no part of it. -/
def Stops (rest : List Char) : Prop :=
  ∀ c ∈ rest.head?, c.isDigit = false ∧ c ≠ '.' ∧ c ≠ 'e' ∧ c ≠ 'E'

/-- The digits at the front end with the first other character. -/
lemma span_isDigit {cs rest : List Char} (hcs : ∀ c ∈ cs, c.isDigit = true)
    (hrest : ∀ c ∈ rest.head?, c.isDigit = false) :
    (cs ++ rest).span Char.isDigit = (cs, rest) := by
  rw [List.span_eq_takeWhile_dropWhile, List.takeWhile_append_of_pos hcs,
    List.dropWhile_append_of_pos hcs]
  cases rest with
  | nil => simp
  | cons c rest => simp [hrest c rfl]

lemma readDigits_append {ds : List ℕ} (hds : ∀ d ∈ ds, d < 10) {rest : List Char}
    (hrest : ∀ c ∈ rest.head?, c.isDigit = false) :
    readDigits (ds.map Nat.digitChar ++ rest) = (ds, rest) := by
  have hdigits : ∀ c ∈ ds.map Nat.digitChar, c.isDigit = true := by
    intro c hc
    obtain ⟨d, hd, rfl⟩ := List.mem_map.mp hc
    simpa using hds d hd
  have hmap : (ds.map Nat.digitChar).map (fun c => c.toNat - '0'.toNat) = ds := by
    rw [List.map_map]
    refine (List.map_congr_left ?_).trans (List.map_id _)
    intro d hd
    rw [Function.comp_apply, Nat.toNat_digitChar_of_lt_ten (hds d hd)]
    exact Nat.add_sub_cancel_left 48 d
  rw [readDigits, span_isDigit hdigits hrest]
  simp only [hmap]

lemma readWhole_append {ds : List ℕ} (hds : AreDigits ds) (hleading : ds.head? = some 0 → ds = [0])
    {rest : List Char} (hrest : ∀ c ∈ rest.head?, c.isDigit = false) :
    readWhole (ds.map Nat.digitChar ++ rest) = some (ds, rest) := by
  obtain ⟨hne, hlt⟩ := hds
  rw [readWhole, readDigits_append hlt hrest]
  -- Only behind a leading zero does it matter whether there are more digits.
  match ds with
  | [] => exact absurd rfl hne
  | [_] => split <;> simp_all
  | _ :: _ :: _ => split <;> simp_all

/-- The characters of a fraction. -/
def fractionChars : Option (List ℕ) → List Char
  | some ds => '.' :: ds.map Nat.digitChar
  | none => []

lemma readFraction_append {fraction : Option (List ℕ)}
    (hfraction : ∀ ds, fraction = some ds → AreDigits ds) {rest : List Char}
    (hrest : ∀ c ∈ rest.head?, c.isDigit = false ∧ c ≠ '.') :
    readFraction (fractionChars fraction ++ rest) = some (fraction, rest) := by
  cases fraction with
  | none =>
    rw [fractionChars, List.nil_append]
    unfold readFraction
    split
    · exact absurd rfl (hrest '.' rfl).2
    · rfl
  | some ds =>
    obtain ⟨hne, hlt⟩ := hfraction ds rfl
    rw [fractionChars, List.cons_append, readFraction,
      readDigits_append hlt fun c hc => (hrest c hc).1]
    cases ds with
    | nil => exact absurd rfl hne
    | cons d ds => rfl

/-- The characters of an exponent. -/
def exponentChars : Option ℤ → List Char
  | some e => 'e' :: (toString e).toList
  | none => []

/-- An integer is written with a minus sign, if it is negative, and the digits of its magnitude. -/
lemma toList_toString (x : ℤ) : (toString x).toList =
    (if x < 0 then ['-'] else []) ++ (digits x.natAbs).map Nat.digitChar := by
  have hnat (n : ℕ) : (toString n).toList = (digits n).map Nat.digitChar := by
    rw [map_digitChar_digits, Nat.toString_eq_ofList_toDigits, String.toList_ofList]
  cases x with
  | ofNat n =>
    have hpos : ¬ Int.ofNat n < 0 := not_lt.mpr (Int.natCast_nonneg n)
    rw [if_neg hpos]
    exact hnat n
  | negSucc n =>
    rw [if_pos (Int.negSucc_lt_zero n)]
    change ("-" ++ toString (n + 1)).toList = _
    rw [String.toList_append, hnat]
    rfl

/-- Digits do not begin with a sign. -/
lemma map_digitChar_ne {ds : List ℕ} (hds : AreDigits ds) {c : Char} (hc : c.isDigit = false)
    (rest cs : List Char) : ds.map Nat.digitChar ++ rest ≠ c :: cs := by
  intro h
  obtain ⟨hne, hlt⟩ := hds
  cases ds with
  | nil => exact hne rfl
  | cons d ds =>
    have hd : d.digitChar.isDigit = true := by simpa using hlt d List.mem_cons_self
    rw [(List.cons.inj h).1, hc] at hd
    cases hd

lemma readExponent_append (exponent : Option ℤ) {rest : List Char} (hrest : Stops rest) :
    readExponent (exponentChars exponent ++ rest) = some (exponent, rest) := by
  cases exponent with
  | none =>
    rw [exponentChars, List.nil_append]
    unfold readExponent
    split
    · next c rest =>
      obtain ⟨-, -, hlower, hupper⟩ := hrest c rfl
      rw [if_neg (by simp [hlower, hupper])]
    · rfl
  | some e =>
    have hdigits := readDigits_append (areDigits_digits e.natAbs).2 fun c hc => (hrest c hc).1
    have hne := (areDigits_digits e.natAbs).1
    rw [exponentChars, toList_toString, List.cons_append, List.append_assoc]
    by_cases hneg : e < 0
    · rw [if_pos hneg, List.singleton_append, readExponent, if_pos (Or.inl rfl), hdigits]
      split
      · next h => exact absurd (Prod.mk.inj h).1 hne
      · next h =>
        obtain ⟨rfl, rfl⟩ := Prod.mk.inj h
        simp [ofDigits_digits, abs_of_neg hneg]
    · rw [if_neg hneg, List.nil_append, readExponent, if_pos (Or.inl rfl), hdigits]
      · split
        · next h => exact absurd (Prod.mk.inj h).1 hne
        · next h =>
          obtain ⟨rfl, rfl⟩ := Prod.mk.inj h
          simp [ofDigits_digits, abs_of_nonneg (not_lt.mp hneg)]
      · exact map_digitChar_ne (areDigits_digits e.natAbs) (by decide) rest
      · exact map_digitChar_ne (areDigits_digits e.natAbs) (by decide) rest

/-- The characters of a number. -/
lemma toList_text (n : Numeral) : n.text.toList = (if n.negative then ['-'] else []) ++
    (n.whole.map Nat.digitChar ++ (fractionChars n.fraction ++ exponentChars n.exponent)) := by
  obtain ⟨negative, whole, fraction, exponent⟩ := n
  cases negative <;> cases fraction <;> cases exponent <;>
    simp [Numeral.text, digitText, fractionChars, exponentChars]

/-- What follows the fraction is no part of it. -/
lemma head?_exponentChars (exponent : Option ℤ) {rest : List Char} (hrest : Stops rest) :
    ∀ c ∈ (exponentChars exponent ++ rest).head?, c.isDigit = false ∧ c ≠ '.' := by
  intro c hc
  cases exponent with
  | none => exact ⟨(hrest c hc).1, (hrest c hc).2.1⟩
  | some e =>
    obtain rfl : 'e' = c := by simpa [exponentChars] using hc
    decide

/-- What follows the digits before the point is no digit. -/
lemma head?_fractionChars (fraction : Option (List ℕ)) (exponent : Option ℤ) {rest : List Char}
    (hrest : Stops rest) :
    ∀ c ∈ (fractionChars fraction ++ (exponentChars exponent ++ rest)).head?,
      c.isDigit = false := by
  intro c hc
  cases fraction with
  | none => exact (head?_exponentChars exponent hrest c hc).1
  | some ds =>
    obtain rfl : '.' = c := by simpa [fractionChars] using hc
    decide

/-- **A number is read as it was written.** -/
theorem readNumeral_text {n : Numeral} (hn : n.Proper) {rest : List Char} (hrest : Stops rest) :
    readNumeral (n.text.toList ++ rest) = some (n, rest) := by
  have hexponent := readExponent_append n.exponent hrest
  have hfraction := readFraction_append hn.fraction (head?_exponentChars n.exponent hrest)
  have hwhole := readWhole_append hn.whole hn.leading
    (head?_fractionChars n.fraction n.exponent hrest)
  have hoffered := hn.offered
  have hsign := map_digitChar_ne hn.whole (by decide : '-'.isDigit = false)
    (fractionChars n.fraction ++ (exponentChars n.exponent ++ rest))
  rw [toList_text]
  simp only [List.append_assoc]
  obtain ⟨negative, whole, fraction, exponent⟩ := n
  cases negative with
  | true => simp [readNumeral, hwhole, hfraction, hexponent, hoffered]
  | false =>
    unfold readNumeral
    split
    next negative cs hcs =>
    split at hcs
    · next h => exact absurd h (hsign _)
    · obtain ⟨rfl, rfl⟩ := Prod.mk.inj hcs
      simp [hwhole, hfraction, hexponent, hoffered]

/-! ## Numbers that are read -/

lemma areDigits_of_readDigits {cs rest : List Char} {ds : List ℕ}
    (h : readDigits cs = (ds, rest)) (hne : ds ≠ []) : AreDigits ds := by
  rw [readDigits, List.span_eq_takeWhile_dropWhile] at h
  obtain ⟨rfl, -⟩ := Prod.mk.inj h
  refine ⟨hne, ?_⟩
  intro d hd
  obtain ⟨c, hc, rfl⟩ := List.mem_map.mp hd
  exact sub_lt_of_isDigit (List.mem_takeWhile_imp hc)

lemma areDigits_of_readWhole {cs rest : List Char} {ds : List ℕ}
    (h : readWhole cs = some (ds, rest)) : AreDigits ds ∧ (ds.head? = some 0 → ds = [0]) := by
  unfold readWhole at h
  split at h
  · cases h
  · cases h
  · next hempty hzero hread =>
    obtain ⟨rfl, rfl⟩ := Prod.mk.inj (Option.some.inj h)
    refine ⟨areDigits_of_readDigits hread hempty, ?_⟩
    intro hhead
    obtain ⟨tail, htail⟩ := List.head?_eq_some_iff.mp hhead
    cases tail with
    | nil => exact htail
    | cons d tail => exact absurd htail (hzero d tail)

lemma areDigits_of_readFraction {cs rest : List Char} {fraction : Option (List ℕ)}
    (h : readFraction cs = some (fraction, rest)) : ∀ ds, fraction = some ds → AreDigits ds := by
  rintro ds rfl
  unfold readFraction at h
  split at h
  · split at h
    · cases h
    · next hempty hread =>
      cases h
      exact areDigits_of_readDigits hread hempty
  · cases h

/-- Only numbers that the grammar admits are read. -/
theorem proper_of_readNumeral {cs rest : List Char} {n : Numeral}
    (h : readNumeral cs = some (n, rest)) : n.Proper := by
  simp only [readNumeral, Option.bind_eq_bind, Option.bind_eq_some_iff] at h
  obtain ⟨⟨whole, cs₁⟩, hwhole, ⟨fraction, cs₂⟩, hfraction, ⟨exponent, cs₃⟩, -, h⟩ := h
  rw [Option.ite_none_right_eq_some] at h
  obtain ⟨hoffered, h⟩ := h
  obtain ⟨rfl, rfl⟩ := Prod.mk.inj (Option.some.inj h)
  obtain ⟨hdigits, hleading⟩ := areDigits_of_readWhole hwhole
  exact ⟨hdigits, hleading, areDigits_of_readFraction hfraction, hoffered⟩

/-! ## Strings -/

lemma hexDigit?_digitChar {d : ℕ} (hd : d < 16) : hexDigit? d.digitChar = some d := by
  interval_cases d <;> decide

/-- A character is read back from how it is escaped. -/
lemma readString_escapeChar (c : Char) (seen : List Char) (fuel : ℕ) (rest : List Char) :
    readString seen (fuel + 1) ((escapeChar c).toList ++ rest) =
      readString (c :: seen) fuel rest := by
  unfold escapeChar
  split_ifs with hquote hslash hcontrol
  · subst hquote
    simp [readString, readEscape]
  · subst hslash
    simp [readString, readEscape]
  · have hhigh := hexDigit?_digitChar (d := c.toNat / 16) (by omega)
    have hlow := hexDigit?_digitChar (d := c.toNat % 16) (by omega)
    have hzero : hexDigit? '0' = some 0 := by decide
    have hchar : Char.ofNat (c.toNat / 16 * 16 + c.toNat % 16) = c := by
      rw [show c.toNat / 16 * 16 + c.toNat % 16 = c.toNat by omega, Char.ofNat_toNat]
    have hunit : c.toNat / 16 * 16 + c.toNat % 16 < 0xd800 := by omega
    simp [readString, readEscape, readUnit, hzero, hhigh, hlow, hchar, hunit]
  · simp [readString, hquote, hslash, hcontrol]

/-- The characters inside a quoted text. -/
def escaped (cs : List Char) : List Char := cs.flatMap fun c => (escapeChar c).toList

lemma toList_quote (s : String) : (quote s).toList = '"' :: (escaped s.toList ++ ['"']) := by
  simp [quote, escaped, String.toList_join, List.flatMap_map]

lemma length_escapeChar_pos (c : Char) : 0 < (escapeChar c).toList.length := by
  unfold escapeChar
  split_ifs <;> simp

/-- The rest of a text is read up to its quote, by induction on its characters. -/
lemma readString_escaped (cs seen rest : List Char) {fuel : ℕ}
    (hfuel : (escaped cs).length < fuel) :
    readString seen fuel (escaped cs ++ '"' :: rest) =
      some (String.ofList (seen.reverse ++ cs), rest) := by
  obtain ⟨fuel, rfl⟩ : ∃ k, fuel = k + 1 := ⟨fuel - 1, by omega⟩
  induction cs generalizing seen fuel with
  | nil => simp [escaped, readString]
  | cons c cs ih =>
    have hescaped : escaped (c :: cs) = (escapeChar c).toList ++ escaped cs := List.flatMap_cons
    -- The reader makes one step for a character, however it is escaped.
    have hpos := length_escapeChar_pos c
    rw [hescaped, List.length_append] at hfuel
    obtain ⟨fuel, rfl⟩ : ∃ k, fuel = k + 1 := ⟨fuel - 1, by omega⟩
    rw [hescaped, List.append_assoc, readString_escapeChar, ih (c :: seen) fuel (by omega)]
    simp

/-- **A text is read as it was quoted.** -/
theorem readString_quote (s : String) (rest : List Char) {fuel : ℕ}
    (hfuel : (escaped s.toList).length < fuel) :
    readString [] fuel (escaped s.toList ++ '"' :: rest) = some (s, rest) := by
  simpa using readString_escaped s.toList [] rest hfuel

end Json

end PackedRecord
