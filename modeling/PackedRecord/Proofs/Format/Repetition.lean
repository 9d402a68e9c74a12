import Mathlib
import PackedRecord.Proofs.Format.Acceptance
import PackedRecord.Proofs.Format.Printed

/-!
# Counts repeat

A count in front of a tag and the tag written out as many times are read in different ways.  The
count is checked at once, against the size of all its fields, and asks for room for all of them; the
written out tags are read one by one, and each is checked by itself.  What comes of both is compared
here, behind any format and in front of any text.

Two ends of reading are compared by `SameEnd`: both have read something, or both have met a fault of
one kind, or one of them was refused room, and then nothing is said.  A fault names a position in
the text, and the texts are of different lengths, so that a kind is a fault without its position
(`FormatFault.unplaced`).

Up to the tags both texts are one.  At the tags both ways end alike, by induction on the count
(`Scan.run_counted_spelled`).  Behind them the same characters are read in two states, of which only
the sizes of the drafts and the waiting counts agree (`Scan.Alike`); one character keeps this up,
and so do all of them (`Scan.step_alike`, `Scan.run_alike`).
-/

namespace PackedRecord

/-! ## Ends of the same kind -/

/-- The kind of a fault: all of it but the position. -/
def FormatFault.unplaced : FormatFault → FormatFault
  | unknownTag tag _ => .unknownTag tag 0
  | countOverflow _ => .countOverflow 0
  | danglingCount _ => .danglingCount 0
  | sizeOverflow => .sizeOverflow
  | tooManyFields count => .tooManyFields count

/-- Two ways of reading end alike, in what is related by `R` or in faults of one kind, as long as
there is room for both. -/
inductive SameEnd {α : Type} (R : α → α → Prop) : Except FormatFault α → Except FormatFault α → Prop
  | reads {a a' : α} (h : R a a') : SameEnd R (.ok a) (.ok a')
  | faults {fault fault' : FormatFault} (h : fault.unplaced = fault'.unplaced) :
      SameEnd R (.error fault) (.error fault')
  | refused (count : ℕ) (result : Except FormatFault α) :
      SameEnd R (.error (.tooManyFields count)) result
  | refusedOther (result : Except FormatFault α) (count : ℕ) :
      SameEnd R result (.error (.tooManyFields count))

namespace SameEnd

variable {α β : Type} {R : α → α → Prop} {Q : β → β → Prop} {x x' : Except FormatFault α}

/-- What ends alike and goes on alike ends alike. -/
lemma bind (h : SameEnd R x x') {f f' : α → Except FormatFault β}
    (hf : ∀ a a', R a a' → SameEnd Q (f a) (f' a')) : SameEnd Q (x.bind f) (x'.bind f') := by
  cases h with
  | reads h => exact hf _ _ h
  | faults h => exact .faults h
  | refused count => exact .refused count _
  | refusedOther result count => exact .refusedOther _ count

lemma map (h : SameEnd R x x') {f f' : α → β} (hf : ∀ a a', R a a' → Q (f a) (f' a')) :
    SameEnd Q (x.map f) (x'.map f') := by
  cases h with
  | reads h => exact .reads (hf _ _ h)
  | faults h => exact .faults h
  | refused count => exact .refused count _
  | refusedOther result count => exact .refusedOther _ count

/-- What both ways have read is known to be the end of both. -/
lemma known (h : SameEnd R x x') :
    SameEnd (fun a a' => R a a' ∧ x = .ok a ∧ x' = .ok a') x x' := by
  cases h with
  | reads h => exact .reads ⟨h, rfl, rfl⟩
  | faults h => exact .faults h
  | refused count => exact .refused count _
  | refusedOther result count => exact .refusedOther _ count

/-- Where neither is refused room, both have read something or met a fault. -/
lemma cases_of_room (h : SameEnd R x x') (hx : ∀ count, x ≠ .error (.tooManyFields count))
    (hx' : ∀ count, x' ≠ .error (.tooManyFields count)) :
    (∃ a a', x = .ok a ∧ x' = .ok a' ∧ R a a') ∨
      ∃ fault fault', x = .error fault ∧ x' = .error fault' ∧ fault.unplaced = fault'.unplaced := by
  cases h with
  | reads h => exact Or.inl ⟨_, _, rfl, rfl, h⟩
  | faults h => exact Or.inr ⟨_, _, rfl, rfl, h⟩
  | refused count => exact absurd rfl (hx count)
  | refusedOther result count => exact absurd rfl (hx' count)

end SameEnd

/-! ## The two ways of writing -/

namespace Tag

variable {t : Tag}

/-- A tag behind a count. -/
def counted (t : Tag) (n : ℕ) : String := toString n ++ String.singleton t.toChar

/-- A tag as many times as a count says. -/
def spelled (t : Tag) (n : ℕ) : String := String.ofList (List.replicate n t.toChar)

lemma toList_counted (t : Tag) (n : ℕ) :
    (t.counted n).toList = Nat.toDigits 10 n ++ [t.toChar] := by
  rw [counted, String.toList_append, Nat.toString_eq_ofList_toDigits, String.toList_ofList,
    String.toList_singleton]

lemma toList_spelled (t : Tag) (n : ℕ) : (t.spelled n).toList = List.replicate n t.toChar :=
  String.toList_ofList

/-- A tag by itself stands for one field of count one. -/
@[simp] lemma expansion_one (t : Tag) : t.expansion 1 = [⟨t, 1⟩] := by
  cases t <;> rfl

/-- A tag that is repeated has the fields that are written out. -/
lemma expansion_of_repeated (hpad : t ≠ .pad) (hfixed : t ≠ .fixedBytes) (hpascal : t ≠ .pascal)
    (n : ℕ) : t.expansion n = List.replicate n ⟨t, 1⟩ := by
  cases t with
  | pad => exact absurd rfl hpad
  | fixedBytes => exact absurd rfl hfixed
  | pascal => exact absurd rfl hpascal
  | _ => rfl

end Tag

namespace Scan

variable {room : Room} {s t t' : Scan} {d d' e e' : Draft}

/-! ## Reading the tags -/

/-- The state behind fields that have been read to their end. -/
structure Holds (d : Draft) (fs : List Field) (t : Scan) : Prop where
  draft : t.draft = d.extend fs
  pending : t.pending = none
  size : d.size + Field.total fs ≤ maxSize

/-- **Written out tags are read one by one.**  They are placed one behind the other, or the first of
them that leaves the range of sizes ends the reading, or there is no room for one. -/
lemma run_spelled_cases (room : Room) (hs : s.pending = none) (hsize : s.draft.size ≤ maxSize)
    (position : ℕ) (t : Tag) (n : ℕ) :
    (∃ s', s.run room position (List.replicate n t.toChar) = .ok s' ∧
        Holds s.draft (List.replicate n ⟨t, 1⟩) s') ∨
      (maxSize < s.draft.size + t.width * n ∧
        s.run room position (List.replicate n t.toChar) = .error .sizeOverflow) ∨
      ∃ count, s.run room position (List.replicate n t.toChar) =
        .error (.tooManyFields count) := by
  induction n generalizing s position with
  | zero => exact Or.inl ⟨s, rfl, by simp, hs, by simpa using hsize⟩
  | succ n ih =>
    have hsplit : t.width * (n + 1) = t.width * 1 + t.width * n := by ring
    rw [List.replicate_succ, run, step_tag, hs]
    simp only [Option.map_none, Option.getD_none]
    rcases Draft.add_cases room hsize t 1 with ⟨hfits, hadd⟩ | ⟨hover, hadd⟩ | ⟨-, hadd⟩
    · rw [hadd]
      have hnext : (s.draft.extend (t.expansion 1)).size = s.draft.size + t.width * 1 := by
        rw [Draft.size_extend, Tag.total_expansion]
      rcases ih (s := ⟨s.draft.extend (t.expansion 1), none, true⟩) rfl (by rwa [hnext])
          (position + t.toChar.utf8Size) with ⟨s', hrun, hdraft, hpending, hend⟩ | ⟨hover, hrun⟩ | h
      · refine Or.inl ⟨s', hrun, ?_, hpending, ?_⟩
        · rw [hdraft, Draft.extend_extend, Tag.expansion_one]
          rfl
        · rw [Field.total_replicate] at hend ⊢
          simp only [hnext] at hend
          omega
      · simp only [hnext] at hover
        exact Or.inr (Or.inl ⟨by omega, hrun⟩)
      · exact Or.inr (Or.inr h)
    · rw [hadd]
      exact Or.inr (Or.inl ⟨by omega, rfl⟩)
    · rw [hadd]
      exact Or.inr (Or.inr ⟨1, rfl⟩)

/-- **At the tags both ways end alike**: in the fields that the tag with its count stands for, and
in as many fields of count one. -/
theorem run_counted_spelled (room : Room) (hs : s.pending = none) (hsize : s.draft.size ≤ maxSize)
    (position : ℕ) (t : Tag) {n : ℕ} (hn : n ≤ maxSize) :
    SameEnd (fun a a' => Holds s.draft (t.expansion n) a ∧
        Holds s.draft (List.replicate n ⟨t, 1⟩) a')
      (s.run room position (t.counted n).toList) (s.run room position (t.spelled n).toList) := by
  rw [Tag.toList_counted, Tag.toList_spelled, run_decimal_tag hs hn]
  rcases Draft.add_cases room hsize t n with ⟨hfits, hadd⟩ | ⟨hover, hadd⟩ | ⟨-, hadd⟩
  · rw [hadd]
    rcases run_spelled_cases room hs hsize position t n with
      ⟨s', hrun, hholds⟩ | ⟨hover, -⟩ | ⟨count, hrun⟩
    · rw [hrun]
      exact .reads ⟨⟨rfl, rfl, by rwa [Tag.total_expansion]⟩, hholds⟩
    · omega
    · rw [hrun]
      exact .refusedOther _ count
  · rw [hadd]
    rcases run_spelled_cases room hs hsize position t n with
      ⟨s', -, -, -, hend⟩ | ⟨-, hrun⟩ | ⟨count, hrun⟩
    · rw [Field.total_replicate] at hend
      omega
    · rw [hrun]
      exact .faults rfl
    · rw [hrun]
      exact .refusedOther _ count
  · rw [hadd]
    exact .refused n _

/-! ## Reading on -/

/-- The same fields have been placed behind two drafts, and their end is a size. -/
def Extended (d d' e e' : Draft) : Prop :=
  ∃ fs, e = d.extend fs ∧ e' = d'.extend fs ∧ d.size + Field.total fs ≤ maxSize

/-- Two states behind different texts: the same fields have been placed behind two drafts, and the
same count waits. -/
structure Alike (d d' : Draft) (t t' : Scan) : Prop where
  drafts : Extended d d' t.draft t'.draft
  counts : t.pending.map (·.count) = t'.pending.map (·.count)

/-- A tag with a count ends alike for drafts of one size. -/
lemma add_alike (room : Room) (hsize : d.size = d'.size) (h : Extended d d' e e') (tag : Tag)
    (count : ℕ) :
    SameEnd (Extended d d') (e.add room tag count) (e'.add room tag count) := by
  obtain ⟨fs, rfl, rfl, hfs⟩ := h
  have hfs' : (d'.extend fs).size ≤ maxSize := by rwa [Draft.size_extend, ← hsize]
  rcases Draft.add_cases room (d := d.extend fs) hfs tag count with
    ⟨hfits, hadd⟩ | ⟨hover, hadd⟩ | ⟨-, hadd⟩
  · rcases Draft.add_cases room hfs' tag count with ⟨-, hadd'⟩ | ⟨hover', -⟩ | ⟨-, hadd'⟩
    · rw [hadd, hadd', Draft.extend_extend, Draft.extend_extend]
      refine .reads ⟨_, rfl, rfl, ?_⟩
      rw [Draft.size_extend] at hfits
      rw [Field.total_append, Tag.total_expansion]
      omega
    · simp only [Draft.size_extend] at hfits hover'
      omega
    · rw [hadd']
      exact .refusedOther _ count
  · rcases Draft.add_cases room hfs' tag count with ⟨hfits', -⟩ | ⟨-, hadd'⟩ | ⟨-, hadd'⟩
    · simp only [Draft.size_extend] at hover hfits'
      omega
    · rw [hadd, hadd']
      exact .faults rfl
    · rw [hadd']
      exact .refusedOther _ count
  · rw [hadd]
    exact .refused count _

/-- Of a waiting count only its number matters to a digit. -/
lemma count_getD (pending : Option Pending) (position : ℕ) :
    (pending.getD ⟨position, 0⟩).count = (pending.map (·.count)).getD 0 := by
  cases pending <;> rfl

lemma addDigit_alike (h : Alike d d' t t') (position position' n : ℕ) :
    SameEnd (Alike d d') (t.addDigit position n) (t'.addDigit position' n) := by
  obtain ⟨hdrafts, hcounts⟩ := h
  have hcount : (t.pending.getD ⟨position, 0⟩).count = (t'.pending.getD ⟨position', 0⟩).count := by
    rw [count_getD, count_getD, hcounts]
  simp only [addDigit, hcount]
  cases (mulSize? (t'.pending.getD ⟨position', 0⟩).count 10).bind (addSize? · n) with
  | none => exact .faults rfl
  | some count => exact .reads ⟨hdrafts, rfl⟩

/-- Where a `<` means nothing any more, a character is a tag or a fault. -/
lemma addTag_of_closed (room : Room) (position : ℕ) {c : Char} (hopen : c = '<' → s.Closed) :
    s.addTag room position c =
      match Tag.ofChar? c with
      | none => .error (.unknownTag c position)
      | some tag =>
        (s.draft.add room tag ((s.pending.map (·.count)).getD 1)).map fun d => ⟨d, none, true⟩ := by
  have horder : ¬ (c = '<' ∧ s.begun = false ∧ s.pending = none) := by
    rintro ⟨hchar, hbegun, hpending⟩
    rcases hopen hchar with hclosed | hclosed
    · simp [hbegun] at hclosed
    · exact hclosed hpending
  rw [addTag, if_neg horder]
  cases Tag.ofChar? c with
  | none => rfl
  | some tag =>
    simp only
    cases s.draft.add room tag ((s.pending.map (·.count)).getD 1) <;> rfl

lemma addTag_alike (room : Room) (hsize : d.size = d'.size) (h : Alike d d' t t')
    (position position' : ℕ) {c : Char} (hopen : c = '<' → t.Closed ∧ t'.Closed) :
    SameEnd (Alike d d') (t.addTag room position c) (t'.addTag room position' c) := by
  obtain ⟨hdrafts, hcounts⟩ := h
  rw [addTag_of_closed room position fun hchar => (hopen hchar).1,
    addTag_of_closed room position' fun hchar => (hopen hchar).2, hcounts]
  cases Tag.ofChar? c with
  | none => exact .faults rfl
  | some tag => exact (add_alike room hsize hdrafts tag _).map fun _ _ hdrafts => ⟨hdrafts, rfl⟩

/-- **One character** ends alike in states that are alike, wherever it stands. -/
theorem step_alike (room : Room) (hsize : d.size = d'.size) (h : Alike d d' t t')
    (position position' : ℕ) {c : Char} (hopen : c = '<' → t.Closed ∧ t'.Closed) :
    SameEnd (Alike d d') (t.step room position c) (t'.step room position' c) := by
  unfold step
  cases Text.isBlank c with
  | true => exact .reads h
  | false =>
    rw [if_neg Bool.false_ne_true, if_neg Bool.false_ne_true]
    cases digit? c with
    | some n => exact addDigit_alike h position position' n
    | none => exact addTag_alike room hsize h position position' hopen

/-- Behind a character that is not blank a `<` means nothing any more. -/
lemma closed_of_step {position : ℕ} {c : Char} (hblank : Text.isBlank c = false)
    (h : s.step room position c = .ok t) : t.Closed := by
  rw [step, hblank, if_neg Bool.false_ne_true] at h
  split at h
  · simp only [addDigit] at h
    split at h
    · cases h
    · rw [← Except.ok.inj h]
      exact Or.inr (by simp)
  · unfold addTag at h
    split at h
    · rw [← Except.ok.inj h]
      exact Or.inl rfl
    · split at h
      · cases h
      · split at h
        · cases h
        · rw [← Except.ok.inj h]
          exact Or.inl rfl

/-- **All characters**, by induction on them.  A `<` in front of all others would be read by the
state in which nothing has been read, and by no other. -/
theorem run_alike (room : Room) (hsize : d.size = d'.size) {cs : List Char} (h : Alike d d' t t')
    (position position' : ℕ)
    (hopen : cs.find? (fun c => !Text.isBlank c) ≠ some '<' ∨ t.Closed ∧ t'.Closed) :
    SameEnd (Alike d d') (t.run room position cs) (t'.run room position' cs) := by
  induction cs generalizing t t' position position' with
  | nil => exact .reads h
  | cons c cs ih =>
    rw [run, run]
    cases hblank : Text.isBlank c with
    | true =>
      have hskip (s : Scan) (position : ℕ) : s.step room position c = .ok s := by
        simp only [step, hblank, if_true]
      rw [List.find?_cons_of_neg (by simp [hblank])] at hopen
      rw [hskip, hskip]
      exact ih h _ _ hopen
    | false =>
      rw [List.find?_cons_of_pos (by simp [hblank])] at hopen
      have hstep : SameEnd (Alike d d') (t.step room position c) (t'.step room position' c) := by
        refine step_alike room hsize h position position' ?_
        rintro rfl
        exact hopen.resolve_left fun hne => hne rfl
      refine hstep.known.bind ?_
      rintro a a' ⟨halike, hend, hend'⟩
      exact ih halike _ _ (Or.inr ⟨closed_of_step hblank hend, closed_of_step hblank hend'⟩)

/-- At the end of the text a count still waits in both states or in neither. -/
lemma finish_alike (h : Alike d d' t t') :
    SameEnd (Extended d d') t.finish t'.finish := by
  obtain ⟨hdrafts, hcounts⟩ := h
  unfold finish
  cases hpending : t.pending with
  | none =>
    rw [hpending] at hcounts
    rw [Option.map_eq_none_iff.mp hcounts.symm]
    exact .reads hdrafts
  | some p =>
    rw [hpending] at hcounts
    obtain ⟨p', hpending', -⟩ := Option.map_eq_some_iff.mp hcounts.symm
    rw [hpending']
    exact .faults rfl

end Scan

/-! ## Compiling both -/

namespace Layout

variable {room : Room} {f g : String} {l : Layout}

/-- The layout of a format is that of the draft at the end of its text. -/
lemma compileWithin_eq (room : Room) (f : String) :
    compileWithin room f = (Scan.start.run room 0 f.toList).bind fun s =>
      s.finish.map fun d => ⟨f, d.slots.toList, d.size, d.arity, d.dynamic⟩ := by
  unfold compileWithin
  cases Scan.start.run room 0 f.toList with
  | error fault => rfl
  | ok s =>
    simp only [Except.bind]
    cases s.finish <;> rfl

lemma ofFields_eq (f : String) (fs : List Field) :
    ofFields f fs =
      ⟨f, (Draft.empty.extend fs).slots.toList, (Draft.empty.extend fs).size,
        (Draft.empty.extend fs).arity, (Draft.empty.extend fs).dynamic⟩ := by
  simp [ofFields, Draft.extend, Draft.empty]

/-- Behind the text of a format that compiles no count waits. -/
lemma exists_holds_of_compile (hl : compileWithin room f = .ok l) :
    ∃ s fs, Scan.start.run room 0 f.toList = .ok s ∧ Scan.Holds .empty fs s := by
  obtain ⟨⟨-, hend⟩, -⟩ := compileWithin_eq_ok hl
  rw [compileWithin_eq] at hl
  rcases Scan.run_start_cases room f with ⟨s, hrun, hreads⟩ | ⟨fault, hrun, -⟩ | ⟨count, hrun⟩
  · refine ⟨s, _, hrun, hreads.draft, ?_, ?_⟩
    · rw [hreads.pending, hend]
      rfl
    · rw [← Draft.size_extend, ← hreads.draft, hreads.size_draft]
      exact hreads.readable.size
  · rw [hrun] at hl
    cases hl
  · rw [hrun] at hl
    cases hl

/-- **A count repeats.**  A count in front of a tag and the tag written out as many times, between a
format and a text that does not begin with a `<`, compile to layouts that differ in the fields of
the tag only, or have faults of one kind. -/
theorem compileWithin_counted_spelled (hl : compileWithin room f = .ok l)
    (hg : g.toList.find? (fun c => !Text.isBlank c) ≠ some '<') (t : Tag) {n : ℕ}
    (hn : n ≤ maxSize) :
    SameEnd (fun m m' => ∃ fs gs,
        m = ofFields (f ++ t.counted n ++ g) (fs ++ (t.expansion n ++ gs)) ∧
        m' = ofFields (f ++ t.spelled n ++ g) (fs ++ (List.replicate n ⟨t, 1⟩ ++ gs)))
      (compileWithin room (f ++ t.counted n ++ g))
      (compileWithin room (f ++ t.spelled n ++ g)) := by
  obtain ⟨s, fs, hrun, hdraft, hpending, hfs⟩ := exists_holds_of_compile hl
  have hsize : s.draft.size ≤ maxSize := by rwa [hdraft]
  have hread (middle : String) : Scan.start.run room 0 (f ++ middle ++ g).toList =
      (s.run room (f.toList.map Char.utf8Size).sum middle.toList).bind fun s =>
        s.run room ((f.toList.map Char.utf8Size).sum + (middle.toList.map Char.utf8Size).sum)
          g.toList := by
    rw [String.toList_append, String.toList_append, List.append_assoc, Scan.run_append, hrun]
    simp only [Except.bind, Nat.zero_add, Scan.run_append]
  have htags := Scan.run_counted_spelled room hpending hsize (f.toList.map Char.utf8Size).sum t hn
  rw [compileWithin_eq, compileWithin_eq, hread, hread]
  refine SameEnd.bind (R := Scan.Alike (s.draft.extend (t.expansion n))
    (s.draft.extend (List.replicate n ⟨t, 1⟩))) (htags.bind ?_) ?_
  · rintro a a' ⟨⟨ha, hpa, hfits⟩, ha', hpa', -⟩
    refine Scan.run_alike room ?_ ⟨⟨[], ?_⟩, ?_⟩ _ _ (Or.inl hg)
    · simp [Field.total_replicate]
    · exact ⟨by rw [ha, Draft.extend_nil], by rw [ha', Draft.extend_nil], hfits⟩
    · rw [hpa, hpa']
  · intro b b' halike
    refine (Scan.finish_alike halike).map ?_
    rintro e e' ⟨gs, rfl, rfl, -⟩
    refine ⟨fs, gs, ?_, ?_⟩
    · rw [ofFields_eq, hdraft, Draft.extend_extend, Draft.extend_extend]
    · rw [ofFields_eq, hdraft, Draft.extend_extend, Draft.extend_extend]

end Layout

end PackedRecord
