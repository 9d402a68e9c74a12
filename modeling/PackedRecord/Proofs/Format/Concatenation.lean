import Mathlib
import PackedRecord.Proofs.Format.Acceptance

/-!
# Two formats in a row

One format written behind another is a format again.  What could go wrong is at the seam: a count
that the first text has left waiting would meet a tag of the second, and a `<` in front of the
second stands in front of everything no more.  An accepted format leaves no count (`Accepted`), and
the `<` is excluded by asking that the second text does not begin with one (`marks_append`).

Nothing else about a mark depends on what stands before it but its position, and a position matters
only for the text of faults.  So the marks of the second format are *moved* by the length of the
first (`Mark.move`), which changes neither their items' fields nor whether they are accepted
(`fields_move`, `Accepted.move`), and items are those of the first format followed by those of the
second (`cut_append`).
-/

namespace PackedRecord.Format

/-! ## Moved marks -/

/-- The same character in a text with `k` more bytes in front. -/
def Mark.move (k : ℕ) (m : Mark) : Mark := ⟨m.position + k, m.char⟩

@[simp] lemma Mark.char_move (k : ℕ) (m : Mark) : (m.move k).char = m.char := rfl

/-- The same item in a text with `k` more bytes in front. -/
def Item.move (k : ℕ) (i : Item) : Item := ⟨i.digits.map (Mark.move k), i.last.move k⟩

@[simp] lemma value_move (k : ℕ) (digits : List Mark) :
    value (digits.map (Mark.move k)) = value digits := by
  rw [value, ← List.map_reverse, List.map_map]
  rfl

namespace Item

variable (k : ℕ) (i : Item)

@[simp] lemma digits_move : (i.move k).digits = i.digits.map (Mark.move k) := rfl

@[simp] lemma tag?_move : (i.move k).tag? = i.tag? := rfl

@[simp] lemma count_move : (i.move k).count = i.count := by
  simp [count]

@[simp] lemma fields_move : (i.move k).fields = i.fields := by
  simp [fields]

end Item

/-- Moved marks are cut in the same places. -/
lemma cut_move (k : ℕ) (ms : List Mark) :
    cut (ms.map (Mark.move k)) = ((cut ms).1.map (Item.move k), (cut ms).2.map (Mark.move k)) := by
  induction ms with
  | nil => rfl
  | cons m ms ih =>
    rw [List.map_cons, cut, ih, cut, Mark.char_move]
    rcases cut ms with ⟨_ | ⟨i, is⟩, rest⟩ <;> cases m.char.isDigit <;> rfl

lemma fields_move (k : ℕ) (ms : List Mark) : fields (ms.map (Mark.move k)) = fields ms := by
  simp [fields, cut_move, List.flatMap_map]

lemma total_move (k : ℕ) (ms : List Mark) : total (ms.map (Mark.move k)) = total ms := by
  rw [← total_fields, fields_move, total_fields]

/-- Being accepted does not depend on where a format stands. -/
lemma Accepted.move {ms : List Mark} (h : Accepted ms) (k : ℕ) :
    Accepted (ms.map (Mark.move k)) := by
  obtain ⟨hread, hend⟩ := h
  have hcut := cut_move k ms
  refine ⟨⟨?_, ?_, ?_, ?_⟩, by rw [hcut, hend]; rfl⟩
  · rw [hcut]
    intro i hi
    obtain ⟨j, hj, rfl⟩ := List.mem_map.mp hi
    rw [Item.tag?_move]
    exact hread.known j hj
  · rw [hcut]
    intro i hi
    obtain ⟨j, hj, rfl⟩ := List.mem_map.mp hi
    rw [Item.digits_move, value_move]
    exact hread.counts j hj
  · rw [hcut, value_move]
    exact hread.waiting
  · rw [total_move]
    exact hread.size

/-! ## The seam -/

/-- Where no digits are left over, cutting begins anew.  The induction is on the end of what
follows, because there one more mark is a matter of its own class. -/
lemma cut_append {ms : List Mark} (h : (cut ms).2 = []) (ns : List Mark) :
    cut (ms ++ ns) = ((cut ms).1 ++ (cut ns).1, (cut ns).2) := by
  induction ns using List.reverseRecOn with
  | nil => rw [List.append_nil, cut_nil, List.append_nil, ← h]
  | append_singleton ns n ih =>
    rw [← List.append_assoc]
    cases hn : n.char.isDigit with
    | true => rw [cut_append_digit hn, ih, cut_append_digit hn]
    | false => rw [cut_append_last hn, ih, cut_append_last hn, List.append_assoc]

lemma Accepted.fields_append {ms : List Mark} (h : Accepted ms) (ns : List Mark) :
    fields (ms ++ ns) = fields ms ++ fields ns := by
  simp only [fields, cut_append h.2, List.flatMap_append]

lemma Accepted.total_append {ms : List Mark} (h : Accepted ms) (ns : List Mark) :
    total (ms ++ ns) = total ms + total ns := by
  simp only [total, cut_append h.2, List.map_append, List.sum_append]

/-- Formats in order are in order one behind the other, if their sizes are not too much together. -/
theorem Accepted.append {ms ns : List Mark} (hms : Accepted ms) (hns : Accepted ns)
    (hsize : total ms + total ns ≤ maxSize) : Accepted (ms ++ ns) := by
  have hcut := cut_append hms.2 ns
  refine ⟨⟨?_, ?_, ?_, ?_⟩, by rw [hcut]; exact hns.2⟩
  · rw [hcut]
    exact List.forall_mem_append.mpr ⟨hms.1.known, hns.1.known⟩
  · rw [hcut]
    exact List.forall_mem_append.mpr ⟨hms.1.counts, hns.1.counts⟩
  · rw [hcut]
    exact hns.1.waiting
  · rw [hms.total_append]
    exact hsize

/-! ## The marks of two texts -/

lemma visible_move (k position : ℕ) (cs : List Char) :
    visible (position + k) cs = (visible position cs).map (Mark.move k) := by
  induction cs generalizing position with
  | nil => rfl
  | cons c cs ih =>
    have hrest := ih (position + c.utf8Size)
    rw [Nat.add_right_comm] at hrest
    cases hblank : Text.isBlank c <;> simp [visible, hblank, hrest, Mark.move]

/-- The characters of a second text stand behind all bytes of the first. -/
lemma visible_append (position : ℕ) (cs ds : List Char) :
    visible position (cs ++ ds) =
      visible position cs ++ visible (position + (cs.map Char.utf8Size).sum) ds := by
  induction cs generalizing position with
  | nil => rfl
  | cons c cs ih =>
    have hrest := ih (position + c.utf8Size)
    cases hblank : Text.isBlank c <;> simp [visible, hblank, hrest, Nat.add_assoc]

/-- The first mark is the first character that is not blank. -/
lemma head?_visible (position : ℕ) (cs : List Char) :
    (visible position cs).head?.map Mark.char = cs.find? fun c => !Text.isBlank c := by
  induction cs generalizing position with
  | nil => rfl
  | cons c cs ih => cases hblank : Text.isBlank c <;> simp [visible, hblank, ih]

/-- Where no `<` stands in front, none is dropped. -/
lemma dropOrder_eq_self {ms : List Mark} (h : ms.head?.map Mark.char ≠ some '<') :
    dropOrder ms = ms := by
  cases ms with
  | nil => rfl
  | cons m ms =>
    have hchar : m.char ≠ '<' := by
      intro hchar
      exact h (congrArg some hchar)
    rw [dropOrder, if_neg hchar]

/-- A `<` in front is looked for in the first of two texts, unless there is nothing in it. -/
lemma dropOrder_append {ns : List Mark} (h : ns.head?.map Mark.char ≠ some '<') (ms : List Mark) :
    dropOrder (ms ++ ns) = dropOrder ms ++ ns := by
  cases ms with
  | nil => exact dropOrder_eq_self h
  | cons m ms =>
    by_cases hchar : m.char = '<' <;> simp [dropOrder, hchar]

/-- **The marks of two texts** are those of the first and those of the second, moved by the bytes of
the first. -/
theorem marks_append {f g : String}
    (hg : g.toList.find? (fun c => !Text.isBlank c) ≠ some '<') :
    marks (f ++ g) = marks f ++ (marks g).map (Mark.move (f.toList.map Char.utf8Size).sum) := by
  have hhead (position : ℕ) : (visible position g.toList).head?.map Mark.char ≠ some '<' := by
    rw [head?_visible]
    exact hg
  rw [marks, String.toList_append, visible_append, dropOrder_append (hhead _), visible_move,
    marks, marks, dropOrder_eq_self (hhead 0)]

end PackedRecord.Format
