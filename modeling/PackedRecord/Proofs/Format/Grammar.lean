import Mathlib
import PackedRecord.Proofs.Layout.Placement

/-!
# The grammar of formats

A format text is a list of *marks*: its characters that are not blank, each with its byte offset,
less the `<` that may stand in front of all others (`marks`).  Cutting the marks behind every
character that is not a digit gives *items*, each a run of digits and the character that ends it,
and the digits behind the last item (`cut`).

With exact numbers and no bound on anything, `Accepted` says which formats are in order: every item
ends in a tag, no run of digits stands for more than a size, no digits are left at the end, and the
sizes of the items add up to a size.  `Faulty` says what is wrong with any other: it names the first
mark at which something goes wrong, everything in front of it being in order (`Readable`), and the
fault that arises there (`FaultAt`).

The two exclude each other, and a format has one fault at most (`Faulty.unique`), because being
`Readable` passes to what stands in front (`Readable.of_append`) and ends at a fault
(`readable_append_singleton`).
-/

namespace PackedRecord.Format

/-! ## Marks -/

/-- A character of a format with its byte offset in the text. -/
structure Mark where
  position : ℕ
  char : Char
  deriving DecidableEq, Repr

/-- The characters that are not blank; the first one stands at `position`. -/
def visible (position : ℕ) : List Char → List Mark
  | [] => []
  | c :: cs =>
    if Text.isBlank c then visible (position + c.utf8Size) cs
    else ⟨position, c⟩ :: visible (position + c.utf8Size) cs

/-- Marks without a `<` in front. -/
def dropOrder : List Mark → List Mark
  | [] => []
  | m :: ms => if m.char = '<' then ms else m :: ms

/-- The marks of a format. -/
def marks (format : String) : List Mark := dropOrder (visible 0 format.toList)

/-! ## Items -/

/-- A run of digits, which may be empty, and the character behind it. -/
structure Item where
  digits : List Mark
  last : Mark
  deriving DecidableEq, Repr

/-- The items of a list of marks, and the digits behind the last item. -/
def cut : List Mark → List Item × List Mark
  | [] => ([], [])
  | m :: ms =>
    match m.char.isDigit, cut ms with
    | false, (is, rest) => (⟨[], m⟩ :: is, rest)
    | true, (i :: is, rest) => (⟨m :: i.digits, i.last⟩ :: is, rest)
    | true, ([], rest) => ([], m :: rest)

/-- The number that decimal digits stand for. -/
def value (digits : List Mark) : ℕ :=
  Nat.ofDigits 10 (digits.reverse.map fun m => m.char.toNat - '0'.toNat)

namespace Item

/-- The tag that ends an item, if it is one. -/
def tag? (i : Item) : Option Tag := Tag.ofChar? i.last.char

/-- The count of an item, which is one where no digits stand. -/
def count (i : Item) : ℕ := if i.digits = [] then 1 else value i.digits

/-- The fields that an item stands for. -/
def fields (i : Item) : List Field :=
  match i.tag? with
  | some t => t.expansion i.count
  | none => []

/-- The static bytes of an item: the width of its tag, as many times as its count says. -/
def size (i : Item) : ℕ :=
  match i.tag? with
  | some t => t.width * i.count
  | none => 0

lemma total_fields (i : Item) : Field.total i.fields = i.size := by
  unfold fields size
  cases i.tag? <;> simp

end Item

/-- The exact sum of the sizes of all items. -/
def total (ms : List Mark) : ℕ := ((cut ms).1.map Item.size).sum

/-- The fields of all items. -/
def fields (ms : List Mark) : List Field := (cut ms).1.flatMap Item.fields

lemma total_fields (ms : List Mark) : Field.total (fields ms) = total ms := by
  unfold fields total
  induction (cut ms).1 with
  | nil => rfl
  | cons i is ih => simp [ih, Item.total_fields]

lemma proper_of_mem_fields {ms : List Mark} {f : Field} (hf : f ∈ fields ms) : f.Proper := by
  obtain ⟨i, -, hi⟩ := List.mem_flatMap.mp hf
  unfold Item.fields at hi
  split at hi
  · exact Tag.proper_of_mem_expansion hi
  · cases hi

/-! ### One more mark -/

@[simp] lemma cut_nil : cut [] = ([], []) := rfl

/-- A digit joins the digits at the end. -/
lemma cut_append_digit {m : Mark} (hm : m.char.isDigit = true) (ms : List Mark) :
    cut (ms ++ [m]) = ((cut ms).1, (cut ms).2 ++ [m]) := by
  induction ms with
  | nil => simp [cut, hm]
  | cons n ms ih =>
    rw [List.cons_append, cut, ih, cut]
    rcases hcut : cut ms with ⟨_ | ⟨i, is⟩, rest⟩ <;> cases n.char.isDigit <;> rfl

/-- Any other character ends an item, to which the digits at the end belong. -/
lemma cut_append_last {m : Mark} (hm : m.char.isDigit = false) (ms : List Mark) :
    cut (ms ++ [m]) = ((cut ms).1 ++ [⟨(cut ms).2, m⟩], []) := by
  induction ms with
  | nil => simp [cut, hm]
  | cons n ms ih =>
    rw [List.cons_append, cut, ih, cut]
    rcases hcut : cut ms with ⟨_ | ⟨i, is⟩, rest⟩ <;> cases n.char.isDigit <;> rfl

@[simp] lemma value_nil : value [] = 0 := rfl

lemma value_append_singleton (ds : List Mark) (m : Mark) :
    value (ds ++ [m]) = 10 * value ds + (m.char.toNat - '0'.toNat) := by
  simp [value, Nat.ofDigits_cons, Nat.add_comm]

lemma total_append_digit {m : Mark} (hm : m.char.isDigit = true) (ms : List Mark) :
    total (ms ++ [m]) = total ms := by
  rw [total, cut_append_digit hm, total]

lemma total_append_last {m : Mark} (hm : m.char.isDigit = false) (ms : List Mark) :
    total (ms ++ [m]) = total ms + Item.size ⟨(cut ms).2, m⟩ := by
  simp [total, cut_append_last hm]

lemma fields_append_digit {m : Mark} (hm : m.char.isDigit = true) (ms : List Mark) :
    fields (ms ++ [m]) = fields ms := by
  rw [fields, cut_append_digit hm, fields]

lemma fields_append_last {m : Mark} (hm : m.char.isDigit = false) (ms : List Mark) :
    fields (ms ++ [m]) = fields ms ++ Item.fields ⟨(cut ms).2, m⟩ := by
  simp [fields, cut_append_last hm]

/-! ## Formats in order, and faults -/

/-- Nothing has gone wrong in these marks; digits at the end may still wait for their tag. -/
structure Readable (ms : List Mark) : Prop where
  known : ∀ i ∈ (cut ms).1, i.tag? ≠ none
  counts : ∀ i ∈ (cut ms).1, value i.digits ≤ maxSize
  waiting : value (cut ms).2 ≤ maxSize
  size : total ms ≤ maxSize

/-- The marks of a format in order. -/
def Accepted (ms : List Mark) : Prop := Readable ms ∧ (cut ms).2 = []

/-- The fault that arises at a mark behind `ms`. -/
inductive FaultAt (ms : List Mark) (m : Mark) : FormatFault → Prop
  /-- A digit takes its run past the largest size; the run is named by where it begins. -/
  | countOverflow {first : Mark} (hdigit : m.char.isDigit = true)
      (hvalue : maxSize < value ((cut ms).2 ++ [m]))
      (hfirst : ((cut ms).2 ++ [m]).head? = some first) :
      FaultAt ms m (.countOverflow first.position)
  /-- A character is neither digit nor tag. -/
  | unknownTag (hdigit : m.char.isDigit = false) (htag : Tag.ofChar? m.char = none) :
      FaultAt ms m (.unknownTag m.char m.position)
  /-- A tag with its count takes the sum of sizes past the largest size. -/
  | sizeOverflow {t : Tag} (hdigit : m.char.isDigit = false) (htag : Tag.ofChar? m.char = some t)
      (hsize : maxSize < total (ms ++ [m])) : FaultAt ms m .sizeOverflow

/-- The fault of a list of marks: that of the first mark with one, or else the one of digits without
a tag behind them. -/
inductive Faulty (ms : List Mark) : FormatFault → Prop
  | first {before after : List Mark} {m : Mark} {fault : FormatFault}
      (hms : ms = before ++ m :: after) (hbefore : Readable before)
      (hfault : FaultAt before m fault) : Faulty ms fault
  | dangling {first : Mark} (hms : Readable ms) (hfirst : (cut ms).2.head? = some first) :
      Faulty ms (.danglingCount first.position)

lemma readable_nil : Readable [] where
  known := by simp
  counts := by simp
  waiting := by simp
  size := by simp [total]

/-- **A fault is exactly what ends readability.** -/
theorem readable_append_singleton (ms : List Mark) (m : Mark) :
    Readable (ms ++ [m]) ↔ Readable ms ∧ ∀ fault, ¬ FaultAt ms m fault := by
  cases hm : m.char.isDigit with
  | true =>
    have hcut := cut_append_digit hm ms
    constructor
    · rintro ⟨hknown, hcounts, hwaiting, hsize⟩
      simp only [hcut] at hknown hcounts hwaiting
      rw [total_append_digit hm] at hsize
      have hprefix : value (cut ms).2 ≤ maxSize := by
        have hmore := value_append_singleton (cut ms).2 m
        omega
      refine ⟨⟨hknown, hcounts, hprefix, hsize⟩, ?_⟩
      rintro _ (⟨-, hvalue, -⟩ | ⟨hdigit, -⟩ | ⟨hdigit, -⟩)
      · omega
      · simp [hm] at hdigit
      · simp [hm] at hdigit
    · rintro ⟨hms, hnone⟩
      have hvalue : value ((cut ms).2 ++ [m]) ≤ maxSize := by
        by_contra hlarge
        obtain ⟨first, hfirst⟩ : ∃ first, ((cut ms).2 ++ [m]).head? = some first := by
          cases (cut ms).2 <;> simp
        exact hnone _ (.countOverflow hm (by omega) hfirst)
      exact ⟨by rw [hcut]; exact hms.known, by rw [hcut]; exact hms.counts,
        by rw [hcut]; exact hvalue, by rw [total_append_digit hm]; exact hms.size⟩
  | false =>
    have hcut := cut_append_last hm ms
    have htotal := total_append_last hm ms
    constructor
    · rintro ⟨hknown, hcounts, -, hsize⟩
      simp only [hcut, List.mem_append, List.mem_singleton] at hknown hcounts
      have hlast := hknown _ (Or.inr rfl)
      refine ⟨⟨?_, ?_, hcounts _ (Or.inr rfl), by omega⟩, ?_⟩
      · intro i hi
        exact hknown i (Or.inl hi)
      · intro i hi
        exact hcounts i (Or.inl hi)
      · rintro _ (⟨hdigit, -, -⟩ | ⟨-, htag⟩ | ⟨-, -, hover⟩)
        · simp [hm] at hdigit
        · exact hlast htag
        · omega
    · rintro ⟨hms, hnone⟩
      have htag : Tag.ofChar? m.char ≠ none := by
        intro h
        exact hnone _ (.unknownTag hm h)
      obtain ⟨t, ht⟩ := Option.ne_none_iff_exists'.mp htag
      have hsize : total (ms ++ [m]) ≤ maxSize := by
        by_contra hlarge
        exact hnone _ (.sizeOverflow hm ht (by omega))
      refine ⟨?_, ?_, by simp [hcut], hsize⟩
      · simp only [hcut, List.mem_append, List.mem_singleton]
        rintro i (hi | rfl)
        · exact hms.known i hi
        · exact htag
      · simp only [hcut, List.mem_append, List.mem_singleton]
        rintro i (hi | rfl)
        · exact hms.counts i hi
        · exact hms.waiting

lemma Readable.of_append {ms ns : List Mark} (h : Readable (ms ++ ns)) : Readable ms := by
  induction ns using List.reverseRecOn with
  | nil => simpa using h
  | append_singleton ns n ih =>
    rw [← List.append_assoc] at h
    exact ih ((readable_append_singleton _ _).mp h).1

/-- Nothing behind a faulty mark makes it readable. -/
lemma FaultAt.not_readable {ms after : List Mark} {m : Mark} {fault : FormatFault}
    (h : FaultAt ms m fault) : ¬ Readable (ms ++ m :: after) := by
  intro hall
  have hsplit : ms ++ m :: after = (ms ++ [m]) ++ after := by simp
  rw [hsplit] at hall
  exact ((readable_append_singleton ms m).mp hall.of_append).2 fault h

lemma FaultAt.unique {ms : List Mark} {m : Mark} {fault fault' : FormatFault}
    (h : FaultAt ms m fault) (h' : FaultAt ms m fault') : fault = fault' := by
  cases h with
  | countOverflow hdigit _ hfirst =>
    cases h' with
    | countOverflow _ _ hfirst' =>
      rw [hfirst] at hfirst'
      rw [Option.some.inj hfirst']
    | unknownTag hdigit' _ => simp [hdigit] at hdigit'
    | sizeOverflow hdigit' _ _ => simp [hdigit] at hdigit'
  | unknownTag hdigit htag =>
    cases h' with
    | countOverflow hdigit' _ _ => simp [hdigit] at hdigit'
    | unknownTag _ _ => rfl
    | sizeOverflow _ htag' _ => simp [htag] at htag'
  | sizeOverflow hdigit htag _ =>
    cases h' with
    | countOverflow hdigit' _ _ => simp [hdigit] at hdigit'
    | unknownTag _ htag' => simp [htag] at htag'
    | sizeOverflow _ _ _ => rfl

lemma Faulty.not_accepted {ms : List Mark} {fault : FormatFault} (h : Faulty ms fault) :
    ¬ Accepted ms := by
  rintro ⟨hread, hend⟩
  cases h with
  | first hms _ hfault => exact hfault.not_readable (hms ▸ hread)
  | dangling _ hfirst => simp [hend] at hfirst

/-- Two marks that both are the first with a fault are the same mark. -/
private lemma first_eq {before before' after after' : List Mark} {m m' : Mark}
    {fault : FormatFault} (heq : before ++ m :: after = before' ++ m' :: after')
    (hfault : FaultAt before m fault) (hbefore' : Readable before') :
    before'.length ≤ before.length := by
  by_contra hlong
  obtain ⟨k, rfl⟩ : ∃ k, before' = before ++ m :: k := by
    rcases List.append_eq_append_iff.mp heq with ⟨k, hk, htail⟩ | ⟨k, hk, -⟩
    · cases k with
      | nil => simp [hk] at hlong
      | cons n k =>
        obtain ⟨rfl, -⟩ := List.cons.inj htail
        exact ⟨k, hk⟩
    · simp [hk] at hlong
  exact hfault.not_readable hbefore'

/-- A list of marks has at most one fault. -/
theorem Faulty.unique {ms : List Mark} {fault fault' : FormatFault} (h : Faulty ms fault)
    (h' : Faulty ms fault') : fault = fault' := by
  cases h with
  | first hms hbefore hfault =>
    cases h' with
    | first hms' hbefore' hfault' =>
      have heq := hms.symm.trans hms'
      have hle := first_eq heq hfault hbefore'
      have hge := first_eq heq.symm hfault' hbefore
      obtain ⟨rfl, htail⟩ := List.append_inj heq (by omega)
      obtain ⟨rfl, -⟩ := List.cons.inj htail
      exact hfault.unique hfault'
    | dangling hread _ => exact absurd (hms ▸ hread) hfault.not_readable
  | dangling hread hfirst =>
    cases h' with
    | first hms' _ hfault' => exact absurd (hms' ▸ hread) hfault'.not_readable
    | dangling _ hfirst' =>
      rw [hfirst] at hfirst'
      rw [Option.some.inj hfirst']

end PackedRecord.Format
