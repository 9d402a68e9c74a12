import Mathlib
import PackedRecord.Proofs.Layout.Placement

/-!
# Reading what was printed

A text that was put together from tags and decimal numbers is read piece by piece: reading two texts
in a row is reading the second one in the state that the first one leaves (`Scan.run_append`).  The
digits of a number leave that number waiting (`Scan.run_decimal`), which is where printing and
gathering digits meet, and a tag hands what waits to the draft (`Scan.step_tag`).

The fields of a printed text come with the counts of compiled fields, so that each of them needs
room for one slot and no more (`Draft.add_proper`).
-/

namespace PackedRecord

/-- There is room for `n` slots, in whatever portions it is asked for. -/
def Room.Holds (room : Room) (n : ℕ) : Prop :=
  ∀ held wanted, held + wanted ≤ n → room.grants held wanted = true

lemma Room.standard_holds : Room.standard.Holds slotLimit := by
  intro held wanted h
  simp only [standard, decide_eq_true_eq]
  omega

lemma Room.Holds.mono {room : Room} {m n : ℕ} (h : room.Holds n) (hle : m ≤ n) : room.Holds m := by
  intro held wanted hfits
  exact h held wanted (hfits.trans hle)

/-- A field with a count that a compiled field can have is placed as it is, if its end is a size. -/
theorem Draft.add_proper {room : Room} {d : Draft} {f : Field} (hf : f.Proper)
    (hroom : room.grants d.slots.size 1 = true) :
    d.add room f.tag f.count =
      if d.size + f.size ≤ maxSize then .ok (d.extend [f]) else .error .sizeOverflow := by
  have hplace : d.place f.tag f.count =
      if d.size + f.size ≤ maxSize then .ok (d.extend [f]) else .error .sizeOverflow :=
    place_eq d f.tag f.count
  -- One slot of a repeated tag is placed as the others are.
  have hone : f.count = 1 → d.placeAll room f.tag f.count = d.place f.tag f.count := by
    intro hcount
    rw [hcount, placeAll, if_pos hroom, placeMany]
    cases d.place f.tag 1 <;> rfl
  unfold Field.Proper at hf
  unfold add
  cases hk : f.tag.kind with
  | pad =>
    simp only [hk] at hf ⊢
    rw [if_neg hf, hplace]
  | fixedBytes | pascalString => exact hplace
  | dynamicString =>
    simp only [hk] at hf ⊢
    rw [hone hf, hplace]
  | signedInt | unsignedInt | float32 | float64 | bool | char =>
    simp only [hk] at hf ⊢
    rw [hone hf, hplace, mulSize?_bind_addSize?]
    unfold Field.size
    split_ifs <;> rfl

namespace Scan

variable {room : Room} {s : Scan}

/-- The first of two texts is read before the second. -/
lemma run_append (room : Room) (s : Scan) (position : ℕ) (cs ds : List Char) :
    s.run room position (cs ++ ds) =
      (s.run room position cs).bind fun s =>
        s.run room (position + (cs.map Char.utf8Size).sum) ds := by
  induction cs generalizing s position with
  | nil => rfl
  | cons c cs ih =>
    rw [List.cons_append, run, run]
    cases s.step room position c with
    | error fault => rfl
    | ok s' => simpa [Except.bind, Nat.add_assoc] using ih s' (position + c.utf8Size)

@[simp] lemma run_singleton (room : Room) (s : Scan) (position : ℕ) (c : Char) :
    s.run room position [c] = s.step room position c := by
  rw [run]
  cases s.step room position c <;> rfl

/-! ## Numbers -/

lemma isBlank_digitChar {d : ℕ} (hd : d < 10) : Text.isBlank d.digitChar = false := by
  apply Text.not_isBlank_of_isDigit
  simpa using hd

lemma digit?_digitChar {d : ℕ} (hd : d < 10) : digit? d.digitChar = some d := by
  interval_cases d <;> decide

/-- A digit that keeps the count a size is appended to it. -/
lemma step_digitChar {d : ℕ} (hd : d < 10) (position : ℕ)
    (hfits : (s.pending.getD ⟨position, 0⟩).count * 10 + d ≤ maxSize) :
    s.step room position d.digitChar =
      .ok { s with pending := some ⟨(s.pending.getD ⟨position, 0⟩).start,
        (s.pending.getD ⟨position, 0⟩).count * 10 + d⟩ } := by
  have hmul : mulSize? (s.pending.getD ⟨position, 0⟩).count 10 =
      some ((s.pending.getD ⟨position, 0⟩).count * 10) :=
    mulSize?_eq_some_iff.mpr ⟨by omega, rfl⟩
  have hadd : addSize? ((s.pending.getD ⟨position, 0⟩).count * 10) d =
      some ((s.pending.getD ⟨position, 0⟩).count * 10 + d) :=
    addSize?_eq_some_iff.mpr ⟨hfits, rfl⟩
  simp only [step, isBlank_digitChar hd, Bool.false_eq_true, if_false, digit?_digitChar hd,
    addDigit, hmul, Option.bind_some, hadd]

/-- **A printed number is read as itself.**  The induction is on its value, because printing puts
the last digit behind the digits of the quotient. -/
theorem run_decimal (hs : s.pending = none) {n : ℕ} (hn : n ≤ maxSize) (position : ℕ) :
    s.run room position (Nat.toDigits 10 n) = .ok { s with pending := some ⟨position, n⟩ } := by
  induction n using Nat.strong_induction_on with
  | _ n ih =>
    rw [Nat.toDigits_eq_if (by norm_num)]
    split
    · next hlt =>
      rw [run_singleton, step_digitChar hlt position (by rw [hs]; simpa using hn), hs]
      simp
    · next hge =>
      have hmod : n % 10 < 10 := Nat.mod_lt _ (by norm_num)
      have hsplit : n / 10 * 10 + n % 10 = n := by omega
      rw [run_append, ih (n / 10) (by omega) (by omega)]
      simp only [Except.bind, run_singleton]
      rw [step_digitChar hmod _ (by simpa [hsplit] using hn)]
      simp [hsplit]

/-! ## Tags -/

lemma isBlank_toChar (t : Tag) : Text.isBlank t.toChar = false := by
  cases t <;> decide

lemma digit?_toChar (t : Tag) : digit? t.toChar = none := by
  cases t <;> decide

lemma toChar_ne_order (t : Tag) : t.toChar ≠ '<' := by
  cases t <;> decide

/-- A tag takes the count that waits, or one. -/
lemma step_tag (room : Room) (s : Scan) (position : ℕ) (t : Tag) :
    s.step room position t.toChar =
      (s.draft.add room t ((s.pending.map (·.count)).getD 1)).map fun d => ⟨d, none, true⟩ := by
  have horder : ¬ (t.toChar = '<' ∧ s.begun = false ∧ s.pending = none) := by
    rintro ⟨hchar, -⟩
    exact toChar_ne_order t hchar
  simp only [step, isBlank_toChar, Bool.false_eq_true, if_false, digit?_toChar, addTag,
    if_neg horder, Tag.ofChar?_toChar]
  cases s.draft.add room t ((s.pending.map (·.count)).getD 1) <;> rfl

/-- A tag by itself is read with the count one. -/
lemma run_tag (hs : s.pending = none) (position : ℕ) (t : Tag) :
    s.run room position [t.toChar] = (s.draft.add room t 1).map fun d => ⟨d, none, true⟩ := by
  rw [run_singleton, step_tag, hs]
  rfl

/-- A tag behind a printed number is read with that count. -/
lemma run_decimal_tag (hs : s.pending = none) {n : ℕ} (hn : n ≤ maxSize) (position : ℕ) (t : Tag) :
    s.run room position (Nat.toDigits 10 n ++ [t.toChar]) =
      (s.draft.add room t n).map fun d => ⟨d, none, true⟩ := by
  rw [run_append, run_decimal hs hn]
  simp only [Except.bind, run_singleton, step_tag, Option.map_some, Option.getD_some]

end Scan

end PackedRecord
