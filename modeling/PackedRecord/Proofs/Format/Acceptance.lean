import Mathlib
import PackedRecord.Proofs.Format.Grammar

/-!
# Compiling accepts the grammar

The compiler reads a format in one pass, with a count that waits and a flag as its only memory.
Here its state is tied to the marks that it has read: `Scan.Reads s ms` says that nothing has gone
wrong in `ms`, that the draft holds the fields of their items, and that the waiting count is the
number and the place of the digits at their end.

One character keeps this up or meets the fault that the grammar has for it (`Scan.step_cases`); by
induction so does the whole text (`Scan.readAll_cases`).  Since a format is either accepted or has
one fault, and not both, compiling decides which: `Layout.compileWithin_iff`.  A compiled layout is
the layout of the fields of its format, and so is well formed (`Layout.wellFormed_of_compile`).

The theorems hold for every room.  Where a room refuses, compiling answers with the number of
slots that were asked for, and the grammar has nothing to say.
-/

namespace PackedRecord

open Format

/-! ## What the reader remembers -/

/-- The count that waits behind a run of digits. -/
def Format.waiting : List Mark → Option Pending
  | [] => none
  | m :: ds => some ⟨m.position, value (m :: ds)⟩

/-- The count that a digit continues stands for the digits before it. -/
lemma Format.count_waiting (ds : List Mark) (position : ℕ) :
    ((waiting ds).getD ⟨position, 0⟩).count = value ds := by
  cases ds <;> rfl

lemma Format.waiting_append_singleton (ds : List Mark) (m : Mark) :
    waiting (ds ++ [m]) =
      some ⟨((waiting ds).getD ⟨m.position, 0⟩).start, value (ds ++ [m])⟩ := by
  cases ds <;> rfl

/-- The run that a digit continues starts where its first digit stands. -/
lemma Format.start_waiting {ds : List Mark} {m first : Mark}
    (hfirst : (ds ++ [m]).head? = some first) :
    ((waiting ds).getD ⟨m.position, 0⟩).start = first.position := by
  cases ds with
  | nil =>
    obtain rfl := Option.some.inj hfirst
    rfl
  | cons d ds =>
    obtain rfl := Option.some.inj hfirst
    rfl

lemma Format.getD_waiting (ds : List Mark) (m : Mark) :
    ((waiting ds).map (·.count)).getD 1 = Item.count ⟨ds, m⟩ := by
  cases ds <;> simp [waiting, Item.count]

namespace Scan

variable {room : Room} {s : Scan} {ms : List Mark} {m : Mark}

/-- The state of the reader behind the marks `ms`. -/
structure Reads (s : Scan) (ms : List Mark) : Prop where
  readable : Readable ms
  draft : s.draft = Draft.empty.extend (fields ms)
  pending : s.pending = waiting (cut ms).2

/-- A `<` means nothing any more. -/
def Closed (s : Scan) : Prop := s.begun = true ∨ s.pending ≠ none

lemma Reads.size_draft (h : s.Reads ms) : s.draft.size = total ms := by
  rw [h.draft, Draft.size_extend, total_fields]
  exact Nat.zero_add _

lemma reads_nil {begun : Bool} : (⟨.empty, none, begun⟩ : Scan).Reads [] where
  readable := readable_nil
  draft := (Draft.extend_nil _).symm
  pending := rfl

/-! ## One character -/

lemma digit?_of_isDigit {c : Char} (hc : c.isDigit = true) :
    digit? c = some (c.toNat - '0'.toNat) := by
  simp [digit?, hc]

lemma digit?_of_not_isDigit {c : Char} (hc : c.isDigit = false) : digit? c = none := by
  simp [digit?, hc]

lemma addDigit_cases (h : s.Reads ms) (hm : m.char.isDigit = true) :
    (∃ s', s.addDigit m.position (m.char.toNat - '0'.toNat) = .ok s' ∧
        s'.Reads (ms ++ [m]) ∧ s'.Closed) ∨
      ∃ fault, s.addDigit m.position (m.char.toNat - '0'.toNat) = .error fault ∧
        FaultAt ms m fault := by
  have hcut := cut_append_digit hm ms
  have hvalue := value_append_singleton (cut ms).2 m
  have hadd : s.addDigit m.position (m.char.toNat - '0'.toNat) =
      if value ((cut ms).2 ++ [m]) ≤ maxSize then
        .ok { s with pending := waiting ((cut ms).2 ++ [m]) }
      else .error (.countOverflow ((waiting (cut ms).2).getD ⟨m.position, 0⟩).start) := by
    have hcomm : (fun count => addSize? count (m.char.toNat - '0'.toNat)) =
        addSize? (m.char.toNat - '0'.toNat) := by
      funext count
      simp [addSize?, Nat.add_comm]
    unfold addDigit
    simp only [h.pending, hcomm, mulSize?_bind_addSize?, count_waiting, waiting_append_singleton,
      hvalue]
    rw [show m.char.toNat - '0'.toNat + value (cut ms).2 * 10 =
      10 * value (cut ms).2 + (m.char.toNat - '0'.toNat) by ring]
    split_ifs <;> rfl
  rw [hadd]
  by_cases hfits : value ((cut ms).2 ++ [m]) ≤ maxSize
  · left
    rw [if_pos hfits]
    refine ⟨_, rfl, ⟨?_, ?_, ?_⟩, Or.inr ?_⟩
    · refine (readable_append_singleton ms m).mpr ⟨h.readable, ?_⟩
      rintro _ (⟨-, hover, -⟩ | ⟨hdigit, -⟩ | ⟨hdigit, -⟩)
      · omega
      · simp [hm] at hdigit
      · simp [hm] at hdigit
    · rw [fields_append_digit hm]
      exact h.draft
    · rw [hcut]
    · simp [waiting_append_singleton]
  · right
    rw [if_neg hfits]
    obtain ⟨first, hfirst⟩ : ∃ first, ((cut ms).2 ++ [m]).head? = some first := by
      cases (cut ms).2 <;> simp
    rw [start_waiting hfirst]
    exact ⟨_, rfl, .countOverflow hm (by omega) hfirst⟩

lemma addTag_cases (room : Room) (h : s.Reads ms) (hm : m.char.isDigit = false)
    (hopen : m.char = '<' → s.Closed) :
    (∃ s', s.addTag room m.position m.char = .ok s' ∧ s'.Reads (ms ++ [m]) ∧ s'.Closed) ∨
      (∃ fault, s.addTag room m.position m.char = .error fault ∧ FaultAt ms m fault) ∨
      ∃ n, s.addTag room m.position m.char = .error (.tooManyFields n) := by
  have horder : ¬ (m.char = '<' ∧ s.begun = false ∧ s.pending = none) := by
    rintro ⟨hchar, hbegun, hpending⟩
    rcases hopen hchar with hclosed | hclosed
    · simp [hbegun] at hclosed
    · exact hclosed hpending
  unfold addTag
  rw [if_neg horder]
  cases htag : Tag.ofChar? m.char with
  | none => exact Or.inr (Or.inl ⟨_, rfl, .unknownTag hm htag⟩)
  | some t =>
    have hitem : Item.tag? ⟨(cut ms).2, m⟩ = some t := htag
    have htotal : total (ms ++ [m]) = total ms + t.width * Item.count ⟨(cut ms).2, m⟩ := by
      rw [total_append_last hm]
      simp only [Item.size, hitem]
    have hfields : fields (ms ++ [m]) = fields ms ++ t.expansion (Item.count ⟨(cut ms).2, m⟩) := by
      rw [fields_append_last hm]
      simp only [Item.fields, hitem]
    simp only [h.pending, getD_waiting _ m]
    have hsize : s.draft.size ≤ maxSize := h.size_draft ▸ h.readable.size
    rcases Draft.add_cases room hsize t (Item.count ⟨(cut ms).2, m⟩) with
      ⟨hfits, hadd⟩ | ⟨hover, hadd⟩ | ⟨-, hadd⟩
    · left
      rw [hadd]
      rw [h.size_draft] at hfits
      refine ⟨_, rfl, ⟨?_, ?_, ?_⟩, Or.inl rfl⟩
      · refine (readable_append_singleton ms m).mpr ⟨h.readable, ?_⟩
        rintro _ (⟨hdigit, -, -⟩ | ⟨-, hnone⟩ | ⟨-, -, hlarge⟩)
        · simp [hm] at hdigit
        · simp [htag] at hnone
        · omega
      · rw [hfields, h.draft, Draft.extend_extend]
      · simp [cut_append_last hm, waiting]
    · right; left
      rw [hadd]
      rw [h.size_draft] at hover
      exact ⟨_, rfl, .sizeOverflow hm htag (by omega)⟩
    · right; right
      rw [hadd]
      exact ⟨_, rfl⟩

/-- **One character.**  The reader goes on to the state behind one more mark, or meets the fault at
that mark, or finds no room. -/
theorem step_cases (room : Room) (h : s.Reads ms) (hblank : Text.isBlank m.char = false)
    (hopen : m.char = '<' → s.Closed) :
    (∃ s', s.step room m.position m.char = .ok s' ∧ s'.Reads (ms ++ [m]) ∧ s'.Closed) ∨
      (∃ fault, s.step room m.position m.char = .error fault ∧ FaultAt ms m fault) ∨
      ∃ n, s.step room m.position m.char = .error (.tooManyFields n) := by
  unfold step
  rw [hblank, if_neg Bool.false_ne_true]
  cases hm : m.char.isDigit with
  | true =>
    rw [digit?_of_isDigit hm]
    rcases addDigit_cases h hm with hok | hfault
    · exact Or.inl hok
    · exact Or.inr (Or.inl hfault)
  | false =>
    rw [digit?_of_not_isDigit hm]
    exact addTag_cases room h hm hopen

/-! ## The whole text -/

/-- Reads marks until the end or the first fault. -/
def readAll (room : Room) (s : Scan) : List Mark → Except FormatFault Scan
  | [] => .ok s
  | m :: ms => (s.step room m.position m.char).bind fun s => s.readAll room ms

/-- Blanks leave the reader as it is, so that only the marks matter. -/
lemma run_eq_readAll (s : Scan) (position : ℕ) (cs : List Char) :
    s.run room position cs = s.readAll room (visible position cs) := by
  induction cs generalizing s position with
  | nil => rfl
  | cons c cs ih =>
    cases hblank : Text.isBlank c with
    | true =>
      have hstep : s.step room position c = .ok s := by simp only [step, hblank, if_true]
      simp only [run, hstep, visible, hblank, if_true, Except.bind, ih]
    | false => simp only [run, visible, hblank, Bool.false_eq_true, if_false, readAll, ih]

lemma not_isBlank_of_mem_visible {position : ℕ} {cs : List Char}
    (hm : m ∈ visible position cs) : Text.isBlank m.char = false := by
  induction cs generalizing position with
  | nil => cases hm
  | cons c cs ih =>
    cases hblank : Text.isBlank c with
    | true =>
      rw [visible, hblank, if_pos rfl] at hm
      exact ih hm
    | false =>
      rw [visible, hblank, if_neg Bool.false_ne_true] at hm
      rcases List.mem_cons.mp hm with rfl | hm
      · exact hblank
      · exact ih hm

/-- **All characters**, by induction on the marks still to be read: the state of the reader belongs
to the marks behind it, wherever in the text it stands. -/
theorem readAll_cases (room : Room) {next : List Mark} (h : s.Reads ms)
    (hblank : ∀ m ∈ next, Text.isBlank m.char = false)
    (hopen : ∀ m, next.head? = some m → m.char = '<' → s.Closed) :
    (∃ s', s.readAll room next = .ok s' ∧ s'.Reads (ms ++ next)) ∨
      (∃ fault, s.readAll room next = .error fault ∧
        ∃ before after m, ms ++ next = before ++ m :: after ∧ Readable before ∧
          FaultAt before m fault) ∨
      ∃ n, s.readAll room next = .error (.tooManyFields n) := by
  induction next generalizing s ms with
  | nil => exact Or.inl ⟨s, rfl, by simpa using h⟩
  | cons m next ih =>
    rcases step_cases room h (hblank m List.mem_cons_self) (hopen m rfl) with
      ⟨s', hstep, hreads, hclosed⟩ | ⟨fault, hstep, hfault⟩ | ⟨n, hstep⟩
    · have hrest : ∀ n ∈ next, Text.isBlank n.char = false := by
        intro n hn
        exact hblank n (List.mem_cons_of_mem _ hn)
      have hnext := ih hreads hrest (fun _ _ _ => hclosed)
      simpa only [readAll, hstep, Except.bind, List.append_assoc, List.singleton_append] using hnext
    · exact Or.inr (Or.inl ⟨fault, by simp only [readAll, hstep, Except.bind],
        ms, next, m, rfl, h.readable, hfault⟩)
    · exact Or.inr (Or.inr ⟨n, by simp only [readAll, hstep, Except.bind]⟩)

/-- A text is read as its marks are, without the `<` in front. -/
lemma run_start_cases (room : Room) (format : String) :
    (∃ s, start.run room 0 format.toList = .ok s ∧ s.Reads (marks format)) ∨
      (∃ fault, start.run room 0 format.toList = .error fault ∧
        ∃ before after m, marks format = before ++ m :: after ∧ Readable before ∧
          FaultAt before m fault) ∨
      ∃ n, start.run room 0 format.toList = .error (.tooManyFields n) := by
  rw [run_eq_readAll]
  have hblank : ∀ m ∈ visible 0 format.toList, Text.isBlank m.char = false := by
    intro m hm
    exact not_isBlank_of_mem_visible hm
  unfold marks
  cases hvisible : visible 0 format.toList with
  | nil => exact readAll_cases room reads_nil (by simp) (by simp)
  | cons m ms =>
    rw [hvisible] at hblank
    by_cases hchar : m.char = '<'
    · -- The first step takes the `<` and closes the state for another one.
      have hstep : start.step room m.position m.char = .ok ⟨.empty, none, true⟩ := by
        rw [hchar]
        rfl
      have hread : start.readAll room (m :: ms) =
          (⟨.empty, none, true⟩ : Scan).readAll room ms := by
        rw [readAll, hstep]
        rfl
      rw [hread, dropOrder, if_pos hchar]
      refine readAll_cases room reads_nil ?_ ?_
      · intro n hn
        exact hblank n (List.mem_cons_of_mem _ hn)
      · intro n hn hother
        exact Or.inl rfl
    · simp only [dropOrder, hchar, if_false]
      refine readAll_cases room reads_nil hblank ?_
      intro n hn hother
      obtain rfl := Option.some.inj hn
      exact absurd hother hchar

end Scan

/-! ## Compiling -/

namespace Layout

/-- The three ends of compiling: the layout of an accepted format, the fault of a faulty one, or no
room. -/
theorem compileWithin_cases (room : Room) (format : String) :
    (Accepted (marks format) ∧
        compileWithin room format = .ok (ofFields format (fields (marks format)))) ∨
      (∃ fault, Faulty (marks format) fault ∧ compileWithin room format = .error fault) ∨
      ∃ n, compileWithin room format = .error (.tooManyFields n) := by
  unfold compileWithin
  rcases Scan.run_start_cases room format with
    ⟨s, hrun, hreads⟩ | ⟨fault, hrun, before, after, m, hms, hbefore, hfault⟩ | ⟨n, hrun⟩
  · rw [hrun]
    cases hdigits : (cut (marks format)).2 with
    | nil =>
      left
      have hpending : s.pending = none := by rw [hreads.pending, hdigits]; rfl
      refine ⟨⟨hreads.readable, hdigits⟩, ?_⟩
      simp [Scan.finish, hpending, hreads.draft, ofFields, Draft.extend, Draft.empty]
    | cons d ds =>
      right; left
      have hpending : s.pending = some ⟨d.position, value (d :: ds)⟩ := by
        rw [hreads.pending, hdigits]
        rfl
      refine ⟨.danglingCount d.position, .dangling hreads.readable (by rw [hdigits]; rfl), ?_⟩
      simp [Scan.finish, hpending]
  · rw [hrun]
    exact Or.inr (Or.inl ⟨fault, .first hms hbefore hfault, rfl⟩)
  · rw [hrun]
    exact Or.inr (Or.inr ⟨n, rfl⟩)

/-- A compiled layout is the layout of the fields of an accepted format. -/
theorem compileWithin_eq_ok {room : Room} {format : String} {l : Layout}
    (hl : compileWithin room format = .ok l) :
    Accepted (marks format) ∧ l = ofFields format (fields (marks format)) := by
  rcases compileWithin_cases room format with ⟨haccepted, h⟩ | ⟨fault, -, h⟩ | ⟨n, h⟩
  · rw [h] at hl
    exact ⟨haccepted, (Except.ok.inj hl).symm⟩
  · rw [h] at hl
    cases hl
  · rw [h] at hl
    cases hl

/-- A layout keeps the text that it was compiled from. -/
lemma format_of_compile {room : Room} {format : String} {l : Layout}
    (hl : compileWithin room format = .ok l) : l.format = format := by
  rw [(compileWithin_eq_ok hl).2]
  rfl

/-- **Compiled layouts are well formed.** -/
theorem wellFormed_of_compile {room : Room} {format : String} {l : Layout}
    (hl : compileWithin room format = .ok l) : l.WellFormed := by
  obtain ⟨⟨hread, -⟩, rfl⟩ := compileWithin_eq_ok hl
  apply ofFields_wellFormed
  · intro f hf
    exact proper_of_mem_fields hf
  · rw [total_fields]
    exact hread.size

/-- **Compiling decides the grammar.**  Where no reservation is refused, a format compiles exactly
when it is accepted, the compiled fields are those of its items in order, and otherwise the answer
is the one fault that the format has. -/
theorem compileWithin_iff (room : Room) (format : String)
    (hroom : ∀ n, compileWithin room format ≠ .error (.tooManyFields n)) :
    ((∃ l, compileWithin room format = .ok l) ↔ Accepted (marks format)) ∧
      (∀ l, compileWithin room format = .ok l →
        l.slots.map Slot.field = (cut (marks format)).1.flatMap Item.fields) ∧
      ∀ fault, compileWithin room format = .error fault ↔ Faulty (marks format) fault := by
  refine ⟨⟨?_, ?_⟩, ?_, ?_⟩
  · rintro ⟨l, hl⟩
    exact (compileWithin_eq_ok hl).1
  · intro haccepted
    rcases compileWithin_cases room format with ⟨-, h⟩ | ⟨fault, hfault, -⟩ | ⟨n, h⟩
    · exact ⟨_, h⟩
    · exact absurd haccepted hfault.not_accepted
    · exact absurd h (hroom n)
  · intro l hl
    obtain ⟨-, rfl⟩ := compileWithin_eq_ok hl
    exact map_field_placed 0 _
  · intro fault
    rcases compileWithin_cases room format with ⟨haccepted, h⟩ | ⟨fault', hfault', h⟩ | ⟨n, h⟩
    · rw [h]
      constructor
      · intro heq
        cases heq
      · intro hfault
        exact absurd haccepted hfault.not_accepted
    · rw [h]
      constructor
      · intro heq
        obtain rfl := Except.error.inj heq
        exact hfault'
      · intro hfault
        rw [hfault.unique hfault']
    · exact absurd h (hroom n)

/-- A count with a blank inside overflows at its last digit, and is named by its first. -/
theorem compileWithin_iff_blank_in_count :
    (∀ n, compileWithin .standard " <2h 1844674407370955 1616z" ≠ .error (.tooManyFields n)) ∧
      Faulty (marks " <2h 1844674407370955 1616z") (.countOverflow 5) := by
  have hfault :
      compileWithin .standard " <2h 1844674407370955 1616z" = .error (.countOverflow 5) := rfl
  have hroom : ∀ n, compileWithin .standard " <2h 1844674407370955 1616z" ≠
      .error (.tooManyFields n) := by
    intro n h
    rw [hfault] at h
    cases h
  exact ⟨hroom, ((compileWithin_iff .standard _ hroom).2.2 _).mp hfault⟩

end Layout

end PackedRecord
