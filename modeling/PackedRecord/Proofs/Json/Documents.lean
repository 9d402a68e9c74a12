import Mathlib
import PackedRecord.Json.Value
import PackedRecord.Proofs.Json.Tokens

/-!
# Documents are read as they were written

The writer of documents makes no blanks, so what matters is where the readers stop and whether their
fuel suffices.  Arrays and objects end with a mark of their own; behind an item stands a comma or
that mark, and neither can be part of a number.  Fuel is counted in characters: a document is read
with as much as it has characters (`Json.Reads`), which the induction over documents carries.

The documents are those with numbers that the grammar admits (`Json.Proper`), and no other document
is ever read.  A value that is no number with a point is written as one of them, and is read back
from it, a signed integer that is not negative as the unsigned one.
-/

namespace PackedRecord

namespace Json

/-! ## Documents -/

/-- A document whose numbers the grammar admits. -/
inductive Proper : Json → Prop
  | null : Proper .null
  | bool (b : Bool) : Proper (.bool b)
  | number {n : Numeral} (h : n.Proper) : Proper (.number n)
  | string (s : String) : Proper (.string s)
  | array {items : List Json} (h : ∀ item ∈ items, item.Proper) : Proper (.array items)
  | object {entries : List (String × Json)} (h : ∀ entry ∈ entries, entry.2.Proper) :
      Proper (.object entries)

/-- The characters of a document. -/
def chars (j : Json) : List Char := j.render.toList

/-- A document is read as it was written, with fuel for each of its characters, whatever is behind
it. -/
def Reads (j : Json) : Prop :=
  ∀ fuel rest, j.chars.length ≤ fuel → Stops rest →
    readValue fuel (j.chars ++ rest) = some (j, rest)

/-- A character that can begin a document. -/
def Opens (c : Char) : Prop := c ≠ ' ' ∧ c ≠ '\t' ∧ c ≠ '\n' ∧ c ≠ '\r' ∧ c ≠ ']'

instance (c : Char) : Decidable (Opens c) :=
  inferInstanceAs (Decidable (c ≠ ' ' ∧ c ≠ '\t' ∧ c ≠ '\n' ∧ c ≠ '\r' ∧ c ≠ ']'))

lemma skipBlanks_of_opens {c : Char} (hc : Opens c) (cs : List Char) :
    skipBlanks (c :: cs) = c :: cs := by
  obtain ⟨hblank, htab, hline, hreturn, -⟩ := hc
  rw [skipBlanks, if_neg (by simp [hblank, htab, hline, hreturn])]

/-- A number begins with a digit or a minus sign. -/
lemma exists_head_text {n : Numeral} (hn : n.Proper) :
    ∃ c cs, n.text.toList = c :: cs ∧ (c = '-' ∨ c.isDigit = true) := by
  rw [toList_text]
  cases n.negative with
  | true => exact ⟨_, _, rfl, Or.inl rfl⟩
  | false =>
    obtain ⟨hne, hlt⟩ := hn.whole
    obtain ⟨d, ds, hds⟩ := List.exists_cons_of_ne_nil hne
    rw [hds]
    refine ⟨_, _, rfl, Or.inr ?_⟩
    simpa using hlt d (hds ▸ List.mem_cons_self)

lemma opens_of_number {c : Char} (hc : c = '-' ∨ c.isDigit = true) : Opens c := by
  refine ⟨?_, ?_, ?_, ?_, ?_⟩ <;> rintro rfl <;> revert hc <;> decide

lemma toList_bracket (opening closing : String) (items : List String) :
    (bracket opening closing items).toList =
      opening.toList ++ ([','].intercalate (items.map String.toList) ++ closing.toList) := by
  simp [bracket]

/-- No document begins with a blank or with the end of an array. -/
lemma exists_head_chars {j : Json} (hj : j.Proper) :
    ∃ c cs, j.chars = c :: cs ∧ Opens c := by
  cases hj with
  | null => exact ⟨'n', ['u', 'l', 'l'], rfl, by decide⟩
  | bool b =>
    cases b with
    | true => exact ⟨'t', ['r', 'u', 'e'], rfl, by decide⟩
    | false => exact ⟨'f', ['a', 'l', 's', 'e'], rfl, by decide⟩
  | number h =>
    obtain ⟨c, cs, htext, hc⟩ := exists_head_text h
    exact ⟨c, cs, htext, opens_of_number hc⟩
  | string s => exact ⟨_, _, toList_quote s, by decide⟩
  | array h => exact ⟨'[', _, by rw [chars, render, toList_bracket]; rfl, by decide⟩
  | object h => exact ⟨'\x7b', _, by rw [chars, render, toList_bracket]; rfl, by decide⟩

lemma reads_number {n : Numeral} (hn : n.Proper) : Reads (.number n) := by
  intro fuel rest hfuel hrest
  obtain ⟨c, cs, htext, hc⟩ := exists_head_text hn
  have hlength : (chars (.number n)).length = cs.length + 1 := congrArg List.length htext
  obtain ⟨fuel, rfl⟩ : ∃ k, fuel = k + 1 := ⟨fuel - 1, by omega⟩
  have hnumeral := readNumeral_text hn hrest
  rw [htext, List.cons_append] at hnumeral
  rw [chars, render, htext, List.cons_append, readValue, skipBlanks_of_opens (opens_of_number hc)]
  split
  case h_7 =>
    rw [hnumeral]
    rfl
  -- Every other kind of document begins with a character of its own.
  all_goals next h =>
    obtain ⟨rfl, -⟩ := List.cons.inj h
    exact absurd hc (by decide)

/-! ## Items and entries -/

/-- Texts that follow another, with a comma in front of each. -/
def following (texts : List (List Char)) : List Char := texts.flatMap (',' :: ·)

@[simp] lemma following_nil : following [] = [] := rfl

@[simp] lemma following_cons (text : List Char) (texts : List (List Char)) :
    following (text :: texts) = ',' :: (text ++ following texts) := by
  simp [following]

lemma intercalate_comma (text : List Char) (texts : List (List Char)) :
    [','].intercalate (text :: texts) = text ++ following texts := by
  induction texts generalizing text with
  | nil => simp
  | cons next texts ih =>
    rw [List.intercalate_cons_cons, ih]
    simp

/-- An entry as it is written. -/
def entryChars (entry : String × Json) : List Char :=
  '"' :: (escaped entry.1.toList ++ '"' :: ':' :: entry.2.chars)

lemma length_entryChars (entry : String × Json) :
    (entryChars entry).length = (escaped entry.1.toList).length + entry.2.chars.length + 3 := by
  simp [entryChars]
  omega

lemma renderItems_eq (items : List Json) : renderItems items = items.map render := by
  induction items with
  | nil => rfl
  | cons item items ih => rw [renderItems, ih, List.map_cons]

lemma toList_renderItems (items : List Json) :
    (renderItems items).map String.toList = items.map chars := by
  rw [renderItems_eq, List.map_map]
  rfl

lemma toList_renderEntries (entries : List (String × Json)) :
    (renderEntries entries).map String.toList = entries.map entryChars := by
  induction entries with
  | nil => rfl
  | cons entry entries ih =>
    rw [renderEntries, List.map_cons, List.map_cons, ih]
    simp [entryChars, toList_quote, chars]

lemma stops_cons {c : Char} (hc : c.isDigit = false ∧ c ≠ '.' ∧ c ≠ 'e' ∧ c ≠ 'E')
    (rest : List Char) : Stops (c :: rest) := by
  intro d hd
  rwa [← Option.some.inj hd]

/-- An item is read, and the reader goes on behind the comma or ends behind the bracket. -/
lemma readItems_comma {item : Json} (hitem : item.Reads) {fuel : ℕ}
    (hfuel : item.chars.length ≤ fuel) (seen : List Json) (rest : List Char) :
    readItems seen (fuel + 1) (item.chars ++ ',' :: rest) = readItems (item :: seen) fuel rest := by
  have hread := hitem fuel (',' :: rest) hfuel (stops_cons (by decide) rest)
  simp [readItems, hread, skipBlanks]

lemma readItems_bracket {item : Json} (hitem : item.Reads) {fuel : ℕ}
    (hfuel : item.chars.length ≤ fuel) (seen : List Json) (rest : List Char) :
    readItems seen (fuel + 1) (item.chars ++ ']' :: rest) =
      some ((item :: seen).reverse, rest) := by
  have hread := hitem fuel (']' :: rest) hfuel (stops_cons (by decide) rest)
  simp [readItems, hread, skipBlanks]

/-- **Items are read up to the end of their array**, by induction on those that are left. -/
theorem readItems_of_reads {item : Json} {items : List Json}
    (h : ∀ j ∈ item :: items, j.Reads) (seen : List Json) (rest : List Char) {fuel : ℕ}
    (hfuel : (item.chars ++ following (items.map chars)).length < fuel) :
    readItems seen fuel (item.chars ++ (following (items.map chars) ++ ']' :: rest)) =
      some (seen.reverse ++ item :: items, rest) := by
  obtain ⟨fuel, rfl⟩ : ∃ k, fuel = k + 1 := ⟨fuel - 1, by omega⟩
  obtain ⟨hitem, hitems⟩ := List.forall_mem_cons.mp h
  rw [List.length_append] at hfuel
  induction items generalizing item seen fuel with
  | nil =>
    rw [List.map_nil, following_nil, List.nil_append, readItems_bracket hitem (by omega),
      List.reverse_cons]
  | cons next items ih =>
    rw [List.map_cons, following_cons, List.length_cons, List.length_append] at hfuel
    obtain ⟨hnext, hrest⟩ := List.forall_mem_cons.mp hitems
    obtain ⟨fuel, rfl⟩ : ∃ k, fuel = k + 1 := ⟨fuel - 1, by omega⟩
    rw [List.map_cons, following_cons, List.cons_append, List.append_assoc,
      readItems_comma hitem (by omega), ih hitems _ _ (by omega) hnext hrest, List.reverse_cons,
      List.append_assoc]
    rfl

/-- An entry is read, and the reader goes on behind the comma or ends behind the brace. -/
lemma readEntries_comma {entry : String × Json} (hentry : entry.2.Reads) {fuel : ℕ}
    (hfuel : (entryChars entry).length ≤ fuel) (seen : List (String × Json)) (rest : List Char) :
    readEntries seen (fuel + 1) (entryChars entry ++ ',' :: rest) =
      readEntries (entry :: seen) fuel rest := by
  rw [length_entryChars] at hfuel
  have hkey := readString_quote entry.1 (':' :: (entry.2.chars ++ ',' :: rest))
    (by omega : _ < fuel)
  have hread := hentry fuel (',' :: rest) (by omega) (stops_cons (by decide) rest)
  simp [readEntries, entryChars, hkey, hread, skipBlanks]

lemma readEntries_brace {entry : String × Json} (hentry : entry.2.Reads) {fuel : ℕ}
    (hfuel : (entryChars entry).length ≤ fuel) (seen : List (String × Json)) (rest : List Char) :
    readEntries seen (fuel + 1) (entryChars entry ++ '\x7d' :: rest) =
      some ((entry :: seen).reverse, rest) := by
  rw [length_entryChars] at hfuel
  have hkey := readString_quote entry.1 (':' :: (entry.2.chars ++ '\x7d' :: rest))
    (by omega : _ < fuel)
  have hread := hentry fuel ('\x7d' :: rest) (by omega) (stops_cons (by decide) rest)
  simp [readEntries, entryChars, hkey, hread, skipBlanks]

/-- **Entries are read up to the end of their object**, by induction on those that are left. -/
theorem readEntries_of_reads {entry : String × Json} {entries : List (String × Json)}
    (h : ∀ e ∈ entry :: entries, e.2.Reads) (seen : List (String × Json)) (rest : List Char)
    {fuel : ℕ} (hfuel : (entryChars entry ++ following (entries.map entryChars)).length < fuel) :
    readEntries seen fuel
        (entryChars entry ++ (following (entries.map entryChars) ++ '\x7d' :: rest)) =
      some (seen.reverse ++ entry :: entries, rest) := by
  obtain ⟨fuel, rfl⟩ : ∃ k, fuel = k + 1 := ⟨fuel - 1, by omega⟩
  obtain ⟨hentry, hentries⟩ := List.forall_mem_cons.mp h
  rw [List.length_append] at hfuel
  induction entries generalizing entry seen fuel with
  | nil =>
    rw [List.map_nil, following_nil, List.nil_append, readEntries_brace hentry (by omega),
      List.reverse_cons]
  | cons next entries ih =>
    rw [List.map_cons, following_cons, List.length_cons, List.length_append] at hfuel
    obtain ⟨hnext, hrest⟩ := List.forall_mem_cons.mp hentries
    obtain ⟨fuel, rfl⟩ : ∃ k, fuel = k + 1 := ⟨fuel - 1, by omega⟩
    rw [List.map_cons, following_cons, List.cons_append, List.append_assoc,
      readEntries_comma hentry (by omega), ih hentries _ _ (by omega) hnext hrest,
      List.reverse_cons, List.append_assoc]
    rfl

/-! ## Documents and their texts -/

lemma chars_array (item : Json) (items : List Json) : chars (.array (item :: items)) =
    '[' :: (item.chars ++ (following (items.map chars) ++ [']'])) := by
  rw [chars, render, toList_bracket, toList_renderItems, List.map_cons, intercalate_comma,
    List.append_assoc]
  rfl

lemma chars_object (entry : String × Json) (entries : List (String × Json)) :
    chars (.object (entry :: entries)) =
      '\x7b' :: (entryChars entry ++ (following (entries.map entryChars) ++ ['\x7d'])) := by
  rw [chars, render, toList_bracket, toList_renderEntries, List.map_cons, intercalate_comma,
    List.append_assoc]
  rfl

lemma reads_string (s : String) : Reads (.string s) := by
  intro fuel rest hfuel _
  have hchars : chars (.string s) = '"' :: (escaped s.toList ++ ['"']) := toList_quote s
  rw [hchars, List.length_cons, List.length_append, List.length_singleton] at hfuel
  obtain ⟨fuel, rfl⟩ : ∃ k, fuel = k + 1 := ⟨fuel - 1, by omega⟩
  have hread := readString_quote s rest (by omega : _ < fuel)
  rw [hchars]
  simp [readValue, skipBlanks, hread]

lemma reads_array {items : List Json} (hproper : ∀ item ∈ items, item.Proper)
    (h : ∀ item ∈ items, item.Reads) : Reads (.array items) := by
  intro fuel rest hfuel _
  cases items with
  | nil =>
    obtain ⟨fuel, rfl⟩ : ∃ k, fuel = k + 1 := ⟨fuel - 1, by
      have htwo : (chars (.array [])).length = 2 := rfl
      omega⟩
    rfl
  | cons item items =>
    obtain ⟨c, cs, hchars, hc⟩ := exists_head_chars (hproper item List.mem_cons_self)
    rw [chars_array, List.length_cons, List.length_append, List.length_append,
      List.length_singleton] at hfuel
    obtain ⟨fuel, rfl⟩ : ∃ k, fuel = k + 1 := ⟨fuel - 1, by omega⟩
    have hread := readItems_of_reads h [] rest
      (by rw [List.length_append]; omega : _ < fuel)
    rw [hchars] at hread
    rw [chars_array, hchars]
    simp only [List.cons_append, List.append_assoc, List.nil_append] at hread ⊢
    rw [readValue, skipBlanks, if_neg (by decide)]
    simp only [skipBlanks_of_opens hc]
    split
    · next h => exact absurd (List.cons.inj h).1 hc.2.2.2.2
    · rw [hread]
      rfl

lemma reads_object {entries : List (String × Json)} (h : ∀ entry ∈ entries, entry.2.Reads) :
    Reads (.object entries) := by
  intro fuel rest hfuel _
  cases entries with
  | nil =>
    obtain ⟨fuel, rfl⟩ : ∃ k, fuel = k + 1 := ⟨fuel - 1, by
      have htwo : (chars (.object [])).length = 2 := rfl
      omega⟩
    rfl
  | cons entry entries =>
    rw [chars_object, List.length_cons, List.length_append, List.length_append,
      List.length_singleton] at hfuel
    obtain ⟨fuel, rfl⟩ : ∃ k, fuel = k + 1 := ⟨fuel - 1, by omega⟩
    have hread := readEntries_of_reads h [] rest
      (by rw [List.length_append]; omega : _ < fuel)
    rw [chars_object]
    simp only [List.cons_append, List.append_assoc, List.nil_append]
    rw [readValue, skipBlanks, if_neg (by decide)]
    rw [entryChars, List.cons_append] at hread ⊢
    simp only [skipBlanks_of_opens (by decide : Opens '"')]
    split
    · next h => exact absurd (List.cons.inj h).1 (by decide)
    · rw [hread]
      rfl

/-- **Every document is read as it was written**, by induction on the document. -/
theorem reads_of_proper {j : Json} (hj : j.Proper) : j.Reads := by
  induction hj with
  | null =>
    intro fuel rest hfuel _
    obtain ⟨fuel, rfl⟩ : ∃ k, fuel = k + 4 := ⟨fuel - 4, by
      have hfour : (chars .null).length = 4 := rfl
      omega⟩
    rfl
  | bool b =>
    intro fuel rest hfuel _
    obtain ⟨fuel, rfl⟩ : ∃ k, fuel = k + 1 := ⟨fuel - 1, by
      have hfour : 4 ≤ (chars (.bool b)).length := by cases b <;> decide
      omega⟩
    cases b <;> rfl
  | number hn => exact reads_number hn
  | string s => exact reads_string s
  | array hitems ih => exact reads_array hitems ih
  | object _ ih => exact reads_object ih

/-- **The text of a document stands for the document.** -/
theorem parse?_render {j : Json} (hj : j.Proper) : parse? j.render = some j := by
  have hread := reads_of_proper hj (j.chars.length + 1) [] (Nat.le_succ _) (by simp [Stops])
  rw [List.append_nil, chars] at hread
  simp [parse?, hread, skipBlanks]

/-! ## Documents that are read -/

/-- With this fuel, the readers that nest answer proper documents only. -/
structure ReadsProper (fuel : ℕ) : Prop where
  value : ∀ {cs rest j}, readValue fuel cs = some (j, rest) → j.Proper
  items : ∀ {seen cs rest items}, readItems seen fuel cs = some (items, rest) →
    (∀ item ∈ seen, item.Proper) → ∀ item ∈ items, item.Proper
  entries : ∀ {seen cs rest entries}, readEntries seen fuel cs = some (entries, rest) →
    (∀ entry ∈ seen, entry.2.Proper) → ∀ entry ∈ entries, entry.2.Proper

lemma ReadsProper.value_succ {fuel : ℕ} (h : ReadsProper fuel) {cs rest : List Char} {j : Json}
    (hread : readValue (fuel + 1) cs = some (j, rest)) : j.Proper := by
  rw [readValue] at hread
  split at hread
  · cases hread
    exact .null
  · cases hread
    exact .bool true
  · cases hread
    exact .bool false
  · obtain ⟨⟨s, cs⟩, -, hj⟩ := Option.map_eq_some_iff.mp hread
    cases hj
    exact .string s
  · split at hread
    · cases hread
      exact .array (by simp)
    · obtain ⟨⟨items, cs⟩, hitems, hj⟩ := Option.map_eq_some_iff.mp hread
      cases hj
      exact .array (h.items hitems (by simp))
  · split at hread
    · cases hread
      exact .object (by simp)
    · obtain ⟨⟨entries, cs⟩, hentries, hj⟩ := Option.map_eq_some_iff.mp hread
      cases hj
      exact .object (h.entries hentries (by simp))
  · obtain ⟨⟨n, cs⟩, hn, hj⟩ := Option.map_eq_some_iff.mp hread
    cases hj
    exact .number (proper_of_readNumeral hn)

lemma ReadsProper.items_succ {fuel : ℕ} (h : ReadsProper fuel) {seen items : List Json}
    {cs rest : List Char} (hread : readItems seen (fuel + 1) cs = some (items, rest))
    (hseen : ∀ item ∈ seen, item.Proper) : ∀ item ∈ items, item.Proper := by
  rw [readItems] at hread
  split at hread
  · cases hread
  · next item cs hitem =>
    have hcons : ∀ j ∈ item :: seen, j.Proper :=
      List.forall_mem_cons.mpr ⟨h.value hitem, hseen⟩
    split at hread
    · exact h.items hread hcons
    · cases hread
      simpa only [List.mem_reverse] using hcons
    · cases hread

lemma ReadsProper.entries_succ {fuel : ℕ} (h : ReadsProper fuel)
    {seen entries : List (String × Json)} {cs rest : List Char}
    (hread : readEntries seen (fuel + 1) cs = some (entries, rest))
    (hseen : ∀ entry ∈ seen, entry.2.Proper) : ∀ entry ∈ entries, entry.2.Proper := by
  rw [readEntries] at hread
  split at hread
  · split at hread
    · cases hread
    · next key cs hkey =>
      split at hread
      · split at hread
        · cases hread
        · next item cs hitem =>
          have hcons : ∀ e ∈ (key, item) :: seen, e.2.Proper :=
            List.forall_mem_cons.mpr ⟨h.value hitem, hseen⟩
          split at hread
          · exact h.entries hread hcons
          · cases hread
            simpa only [List.mem_reverse] using hcons
          · cases hread
      · cases hread
  · cases hread

/-- The readers answer proper documents only, by induction on the fuel. -/
theorem readsProper (fuel : ℕ) : ReadsProper fuel := by
  induction fuel with
  | zero =>
    refine ⟨?_, ?_, ?_⟩
    · intro cs rest j h
      cases h
    · intro seen cs rest items h
      cases h
    · intro seen cs rest entries h
      cases h
  | succ fuel ih => exact ⟨ih.value_succ, ih.items_succ, ih.entries_succ⟩

/-- Only proper documents are read. -/
theorem proper_of_parse? {text : String} {j : Json} (h : parse? text = some j) : j.Proper := by
  simp only [parse?] at h
  split at h
  · next hread =>
    rw [Option.ite_none_right_eq_some] at h
    obtain ⟨-, h⟩ := h
    cases h
    exact (readsProper _).value hread
  · cases h

/-- **A document that was read is written as a text that is read as the same document.** -/
theorem parse?_render_of_parse? {text : String} {j : Json} (h : parse? text = some j) :
    parse? j.render = some j :=
  parse?_render (proper_of_parse? h)

end Json

/-! ## Values -/

namespace Value

/-- The number of an integer. -/
def numeral (x : ℤ) : Numeral := ⟨decide (x < 0), Numeral.digits x.natAbs, none, none⟩

/-- The document that a value is written as, unless it is a number with a point. -/
def document? : Value → Option Json
  | int i => some (.number (numeral i.toInt))
  | uint u => some (.number (numeral u.toNat))
  | float _ => none
  | bool b => some (.bool b)
  | bytes bs => some (.array (bs.map fun b => .number (numeral b.toNat)))

/-- What is read where a value was written: an integer that is not negative is unsigned. -/
def written : Value → Value
  | int i => if i.toInt < 0 then int i else uint (UInt64.ofNat i.toInt.toNat)
  | v => v

lemma text_numeral (x : ℤ) : (numeral x).text = toString x := by
  apply String.toList_inj.mp
  rw [Json.toList_text, Json.toList_toString]
  simp [numeral, Json.fractionChars, Json.exponentChars]

lemma proper_numeral {x : ℤ} {o : Offer} (ho : (numeral x).offer? = some o) :
    (numeral x).Proper where
  whole := Numeral.areDigits_digits x.natAbs
  leading h := by
    have hzero : x.natAbs = 0 := Numeral.head?_digits x.natAbs h
    rw [numeral, hzero]
    rfl
  fraction ds h := by cases h
  offered := by rw [ho]; rfl

lemma offer?_numeral_of_nat {n : ℕ} (h : n ≤ 0xffffffffffffffff) :
    (numeral n).offer? = some (.unsigned (UInt64.ofNat n)) := by
  simp [Numeral.offer?, numeral, Numeral.isInteger, Numeral.ofDigits_digits, h]

lemma offer?_numeral_of_neg {x : ℤ} (hneg : x < 0) (hlow : -0x8000000000000000 ≤ x) :
    (numeral x).offer? = some (.signed (Int64.ofInt x)) := by
  have hpos : 0 < x.natAbs := by omega
  have hle : x.natAbs ≤ 0x8000000000000000 := by omega
  have habs : -(x.natAbs : ℤ) = x := by omega
  simp only [Numeral.offer?, numeral, Numeral.isInteger, Numeral.ofDigits_digits]
  rw [if_neg (by simp [hneg]), if_pos (by simp [hneg, hpos, hle]), habs]

lemma accept_byte (b : UInt8) :
    IntType.byte.accept (.unsigned (UInt64.ofNat b.toNat)) = .ok b.toNat := by
  have hlt : b.toNat < 256 := b.toNat_lt
  have hholds : IntType.byte.holds b.toNat = true := by
    simp [IntType.holds, IntType.byte, IntType.min, IntType.max]
    omega
  simp [IntType.accept, Offer.integer?, hholds]

lemma accept_bytes (bs : List UInt8) :
    (bs.map fun b => Offer.unsigned (UInt64.ofNat b.toNat)).mapM IntType.byte.accept =
      .ok (bs.map fun b => (b.toNat : ℤ)) := by
  induction bs with
  | nil => rfl
  | cons b bs ih =>
    rw [List.map_cons, List.mapM_cons, ih, accept_byte]
    rfl

lemma offers_eq (items : List Json) : Json.offers items = items.map Json.offer := by
  induction items with
  | nil => rfl
  | cons item items ih => rw [Json.offers, ih, List.map_cons]

lemma offer_number {x : ℤ} {o : Offer} (ho : (numeral x).offer? = some o) :
    Json.offer (.number (numeral x)) = o := by
  rw [Json.offer, ho]
  rfl

/-- The document of an integer stands for the value that its offer is taken as. -/
lemma number_of_offer {x : ℤ} {o : Offer} {v : Value} (ho : (numeral x).offer? = some o)
    (hv : accept o = .ok v) :
    (Json.number (numeral x)).Proper ∧ (Json.number (numeral x)).render = toString x ∧
      (Json.number (numeral x)).toValue = .ok v := by
  refine ⟨.number (proper_numeral ho), text_numeral x, ?_⟩
  rw [Json.toValue, offer_number ho, hv]

/-- The document of a value is written as the value is, and stands for it. -/
theorem toJson_of_document {v : Value} {j : Json} (h : v.document? = some j) :
    j.Proper ∧ j.render = v.toJson ∧ j.toValue = .ok v.written := by
  cases v with
  | int i =>
    obtain rfl := Option.some.inj h
    by_cases hneg : i.toInt < 0
    · refine number_of_offer (offer?_numeral_of_neg hneg i.le_toInt) ?_
      rw [accept, Int64.ofInt_toInt, written, if_pos hneg]
    · have hhigh := i.toInt_lt
      have hnat : ((i.toInt.toNat : ℕ) : ℤ) = i.toInt := Int.toNat_of_nonneg (not_lt.mp hneg)
      have ho := offer?_numeral_of_nat (by omega : i.toInt.toNat ≤ 0xffffffffffffffff)
      rw [hnat] at ho
      refine number_of_offer ho ?_
      rw [accept, written, if_neg hneg]
  | uint u =>
    obtain rfl := Option.some.inj h
    have hlt := u.toNat_lt
    refine number_of_offer (offer?_numeral_of_nat (by omega)) ?_
    rw [accept, UInt64.ofNat_toNat]
    rfl
  | float x => cases h
  | bool b =>
    obtain rfl := Option.some.inj h
    exact ⟨.bool b, rfl, rfl⟩
  | bytes bs =>
    obtain rfl := Option.some.inj h
    have ho (b : UInt8) : (numeral b.toNat).offer? = some (.unsigned (UInt64.ofNat b.toNat)) :=
      offer?_numeral_of_nat (by have := b.toNat_lt; omega)
    refine ⟨.array ?_, ?_, ?_⟩
    · intro item hitem
      obtain ⟨b, -, rfl⟩ := List.mem_map.mp hitem
      exact .number (proper_numeral (ho b))
    · have hitems : Json.renderItems (bs.map fun b => .number (numeral b.toNat)) =
          bs.map fun b => toString b.toNat := by
        rw [Json.renderItems_eq, List.map_map]
        exact List.map_congr_left fun b _ => text_numeral b.toNat
      rw [Json.render, hitems, toJson]
    · have hoffers : Json.offers (bs.map fun b => .number (numeral b.toNat)) =
          bs.map fun b => .unsigned (UInt64.ofNat b.toNat) := by
        rw [offers_eq, List.map_map]
        exact List.map_congr_left fun b _ => offer_number (ho b)
      have hback : (bs.map fun b => (b.toNat : ℤ)).map (fun x => UInt8.ofNat x.toNat) = bs := by
        rw [List.map_map]
        refine (List.map_congr_left ?_).trans (List.map_id bs)
        intro b _
        simp
      rw [Json.toValue, Json.offer, hoffers, accept, accept_bytes]
      simp only [Except.map, hback, written]

/-- **A written value is read back**, if it is no number with a point. -/
theorem valueOfText_toJson {v : Value} (hv : ∀ x, v ≠ .float x) :
    Json.valueOfText v.toJson = .ok v.written := by
  obtain ⟨j, hj⟩ : ∃ j, v.document? = some j := by
    cases v with
    | float x => exact absurd rfl (hv x)
    | int | uint | bool | bytes => exact ⟨_, rfl⟩
  obtain ⟨hproper, hrender, hvalue⟩ := toJson_of_document hj
  rw [Json.valueOfText, ← hrender, Json.parse?_render hproper]
  simp only [hvalue, Except.mapError]

end Value

end PackedRecord
