import Mathlib
import PackedRecord.Record
import PackedRecord.Proofs.Format.Acceptance
import PackedRecord.Proofs.Format.Printed

/-!
# The layout of a declaration

A record is declared part by part, and compiled from the text that the parts are written out as.
What comes of it is said here without the text: the fields that the parts stand for, in their order
(`Part.field?`), one after the other from offset zero.

The text is read as the parts are.  The tag of a part ends it and leaves no count behind, so that
nothing of a part can run into the next one; and a printed capacity is read as the number that it
is (`Scan.run_part`).  By induction on the parts, compiling succeeds exactly when the declared sizes
add up to a size, and there is no other fault (`Layout.compileWithin_declaration`).
-/

namespace PackedRecord

/-! ## What is declared -/

/-- Bytes of the static region that a type is declared to take. -/
def FieldType.size : FieldType → ℕ
  | int8 | uint8 | bool | char => 1
  | int16 | uint16 => 2
  | int32 | uint32 | float32 => 4
  | int64 | uint64 | float64 => 8
  | bytes capacity | pascal capacity => capacity
  | dynamic => 0

/-- The field that a type stands for. -/
def FieldType.field : FieldType → Field
  | int8 => ⟨.int8, 1⟩
  | uint8 => ⟨.uint8, 1⟩
  | int16 => ⟨.int16, 1⟩
  | uint16 => ⟨.uint16, 1⟩
  | int32 => ⟨.int32, 1⟩
  | uint32 => ⟨.uint32, 1⟩
  | int64 => ⟨.int64, 1⟩
  | uint64 => ⟨.uint64, 1⟩
  | float32 => ⟨.float32, 1⟩
  | float64 => ⟨.float64, 1⟩
  | bool => ⟨.bool, 1⟩
  | char => ⟨.char, 1⟩
  | bytes capacity => ⟨.fixedBytes, capacity⟩
  | pascal capacity => ⟨.pascal, capacity⟩
  | dynamic => ⟨.dynamic, 1⟩

namespace Part

/-- The type of a part that is a field. -/
def type? : Part → Option FieldType
  | field _ type => some type
  | pad _ => none

/-- The field that a part stands for; a pad of no bytes stands for none. -/
def field? : Part → Option Field
  | field _ type => some type.field
  | pad size => if size = 0 then none else some ⟨.pad, size⟩

/-- Bytes of the static region that a part is declared to take. -/
def size : Part → ℕ
  | field _ type => type.size
  | pad size => size

end Part

/-- The fields of a declaration, in order. -/
def declared (parts : List Part) : List Field := parts.filterMap Part.field?

lemma declared_append (parts parts' : List Part) :
    declared (parts ++ parts') = declared parts ++ declared parts' := List.filterMap_append

lemma declared_cons_none {part : Part} (h : part.field? = none) (parts : List Part) :
    declared (part :: parts) = declared parts := List.filterMap_cons_none h

lemma declared_cons_some {part : Part} {f : Field} (h : part.field? = some f)
    (parts : List Part) : declared (part :: parts) = f :: declared parts :=
  List.filterMap_cons_some h

namespace FieldType

lemma size_field (t : FieldType) : t.field.size = t.size := by
  cases t <;> simp [field, size, Field.size, Tag.width]

lemma count_field_le {t : FieldType} (ht : t.size ≤ maxSize) : t.field.count ≤ maxSize := by
  cases t with
  | bytes capacity | pascal capacity => exact ht
  | _ => exact Nat.one_le_iff_ne_zero.mpr (by decide)

lemma proper_field (t : FieldType) : t.field.Proper := by
  cases t <;> simp [field, Field.Proper, Tag.kind]

lemma hasValue_field (t : FieldType) : t.field.tag.hasValue = true := by
  cases t <;> rfl

/-- A type is written as its tag, behind its capacity where it has one. -/
lemma toList_format (t : FieldType) :
    t.format.toList = [t.field.tag.toChar] ∧ t.field.count = 1 ∨
      t.format.toList = Nat.toDigits 10 t.field.count ++ [t.field.tag.toChar] := by
  cases t with
  | bytes capacity | pascal capacity =>
    right
    rw [format, String.toList_append, Nat.toString_eq_ofList_toDigits, String.toList_ofList]
    rfl
  | _ => exact Or.inl ⟨rfl, rfl⟩

end FieldType

namespace Part

variable {part : Part}

lemma size_of_field?_eq_none (h : part.field? = none) : part.size = 0 := by
  cases part with
  | field name type => cases h
  | pad size => simpa [field?, Part.size] using h

lemma size_field? {f : Field} (h : part.field? = some f) : f.size = part.size := by
  cases part with
  | field name type =>
    rw [← Option.some.inj h]
    exact type.size_field
  | pad size =>
    simp only [field?, Option.ite_none_left_eq_some, Option.some.injEq] at h
    obtain ⟨-, rfl⟩ := h
    simp [Field.size, Tag.width, Part.size]

lemma proper_field? {f : Field} (h : part.field? = some f) : f.Proper := by
  cases part with
  | field name type =>
    rw [← Option.some.inj h]
    exact type.proper_field
  | pad size =>
    simp only [field?, Option.ite_none_left_eq_some, Option.some.injEq] at h
    obtain ⟨hpos, rfl⟩ := h
    exact hpos

end Part

/-- The declared sizes are those of the fields. -/
lemma total_declared (parts : List Part) :
    Field.total (declared parts) = (parts.map Part.size).sum := by
  induction parts with
  | nil => rfl
  | cons part parts ih =>
    rw [List.map_cons, List.sum_cons, ← ih]
    cases hfield : part.field? with
    | none => rw [declared_cons_none hfield, Part.size_of_field?_eq_none hfield, Nat.zero_add]
    | some f => rw [declared_cons_some hfield, Field.total_cons, Part.size_field? hfield]

/-- The fields with values are those of the types. -/
lemma filter_declared (parts : List Part) :
    (declared parts).filter (fun f => f.tag.hasValue) =
      (parts.filterMap Part.type?).map FieldType.field := by
  induction parts with
  | nil => rfl
  | cons part parts ih =>
    cases part with
    | field name type =>
      have hfield : (Part.field name type).field? = some type.field := rfl
      simp only [declared_cons_some hfield, List.filter_cons, FieldType.hasValue_field, if_true, ih]
      rfl
    | pad size =>
      cases hfield : (Part.pad size).field? with
      | none =>
        rw [declared_cons_none hfield, ih]
        rfl
      | some f =>
        have hpad : f.tag.hasValue = false := by
          simp only [Part.field?, Option.ite_none_left_eq_some, Option.some.injEq] at hfield
          rw [← hfield.2]
          rfl
        simp only [declared_cons_some hfield, List.filter_cons, hpad, Bool.false_eq_true, if_false,
          ih]
        rfl

/-- Names and types come in pairs. -/
lemma length_types (parts : List Part) :
    (parts.filterMap Part.type?).length = (parts.filterMap Part.name?).length := by
  induction parts with
  | nil => rfl
  | cons part parts ih =>
    cases part with
    | field name type => exact congrArg (· + 1) ih
    | pad size => exact ih

/-! ## Reading a declaration -/

namespace Scan

variable {room : Room} {s : Scan}

/-- **A part is read as its field.** -/
theorem run_part {part : Part} (hs : s.pending = none) (hsize : part.size ≤ maxSize)
    (position : ℕ) :
    s.run room position part.format.toList =
      match part.field? with
      | none => .ok s
      | some f => (s.draft.add room f.tag f.count).map fun d => ⟨d, none, true⟩ := by
  cases part with
  | field name type =>
    change s.run room position type.format.toList =
      (s.draft.add room type.field.tag type.field.count).map fun d => ⟨d, none, true⟩
    rcases type.toList_format with ⟨hformat, hcount⟩ | hformat
    · rw [hformat, hcount, run_tag hs]
    · rw [hformat, run_decimal_tag hs (FieldType.count_field_le hsize)]
  | pad size =>
    by_cases hzero : size = 0
    · simp [Part.format, Part.field?, hzero, run]
    · have hformat : (Part.pad size).format.toList = Nat.toDigits 10 size ++ [Tag.pad.toChar] := by
        rw [Part.format, if_neg hzero, String.toList_append, Nat.toString_eq_ofList_toDigits,
          String.toList_ofList]
        rfl
      have hn : size ≤ maxSize := hsize
      rw [hformat, run_decimal_tag hs hn]
      simp only [Part.field?, if_neg hzero]

/-- **The parts are placed one after the other**, as long as their ends are sizes.  Each part asks
for room for one slot at most. -/
theorem run_declaration {parts : List Part} (hsizes : ∀ part ∈ parts, part.size ≤ maxSize)
    (hs : s.pending = none) (hd : s.draft.size ≤ maxSize)
    (hroom : room.Holds (s.draft.slots.size + (declared parts).length)) (position : ℕ) :
    (s.draft.size + Field.total (declared parts) ≤ maxSize ∧
        ∃ begun, s.run room position ((parts.map Part.format).flatMap String.toList) =
          .ok ⟨s.draft.extend (declared parts), none, begun⟩) ∨
      (maxSize < s.draft.size + Field.total (declared parts) ∧
        s.run room position ((parts.map Part.format).flatMap String.toList) =
          .error .sizeOverflow) := by
  induction parts generalizing s position with
  | nil =>
    refine Or.inl ⟨hd, s.begun, ?_⟩
    simp [declared, run, ← hs]
  | cons part parts ih =>
    obtain ⟨hpart, hsizes⟩ := List.forall_mem_cons.mp hsizes
    rw [List.map_cons, List.flatMap_cons, run_append, run_part hs hpart]
    cases hfield : part.field? with
    | none =>
      rw [declared_cons_none hfield] at hroom ⊢
      exact ih hsizes hs hd hroom _
    | some f =>
      rw [declared_cons_some hfield, List.length_cons] at hroom
      have hone : room.grants s.draft.slots.size 1 = true := hroom _ _ (by omega)
      rw [declared_cons_some hfield, Field.total_cons, ← List.singleton_append,
        ← Draft.extend_extend]
      simp only [Draft.add_proper (Part.proper_field? hfield) hone]
      by_cases hfits : s.draft.size + f.size ≤ maxSize
      · rw [if_pos hfits]
        have hrest : room.Holds ((s.draft.extend [f]).slots.size + (declared parts).length) := by
          refine hroom.mono ?_
          simp [Draft.extend, placed]
          omega
        have hsize : (s.draft.extend [f]).size = s.draft.size + f.size := by simp
        rcases ih (s := ⟨s.draft.extend [f], none, true⟩) hsizes rfl (hsize.le.trans hfits) hrest
          (position + (part.format.toList.map Char.utf8Size).sum) with
          ⟨hle, begun, hrun⟩ | ⟨hlt, hrun⟩
        · rw [hsize, Nat.add_assoc] at hle
          exact Or.inl ⟨hle, begun, hrun⟩
        · rw [hsize, Nat.add_assoc] at hlt
          exact Or.inr ⟨hlt, hrun⟩
      · rw [if_neg hfits]
        exact Or.inr ⟨by omega, rfl⟩

end Scan

/-- **A declaration compiles to its fields**, or its sizes are too much together. -/
theorem Layout.compileWithin_declaration {room : Room} {parts : List Part}
    (hsizes : ∀ part ∈ parts, part.size ≤ maxSize) (hroom : room.Holds (declared parts).length) :
    compileWithin room (String.join (parts.map Part.format)) =
      if (parts.map Part.size).sum ≤ maxSize then
        .ok (ofFields (String.join (parts.map Part.format)) (declared parts))
      else .error .sizeOverflow := by
  have hstart : room.Holds (Scan.start.draft.slots.size + (declared parts).length) := by
    simpa [Scan.start, Draft.empty] using hroom
  have hsize : Scan.start.draft.size = 0 := rfl
  have hrun := Scan.run_declaration hsizes (s := .start) rfl (Nat.zero_le _) hstart 0
  rw [hsize, Nat.zero_add, total_declared] at hrun
  rw [compileWithin, String.toList_join]
  rcases hrun with ⟨hle, begun, hrun⟩ | ⟨hlt, hrun⟩
  · rw [hrun, if_pos hle]
    simp [Scan.finish, Scan.start, ofFields, Draft.extend, Draft.empty]
  · rw [hrun, if_neg (not_le.mpr hlt)]

/-- Where a declaration compiles, in whatever room, it is to the layout of its fields. -/
theorem Layout.eq_of_compile_declaration {room : Room} {parts : List Part}
    (hsizes : ∀ part ∈ parts, part.size ≤ maxSize) {l : Layout}
    (hl : compileWithin room (String.join (parts.map Part.format)) = .ok l) :
    (parts.map Part.size).sum ≤ maxSize ∧
      l = ofFields (String.join (parts.map Part.format)) (declared parts) := by
  obtain ⟨haccepted, rfl⟩ := compileWithin_eq_ok hl
  -- A room that refuses nothing compiles all that any room compiles, and to the same layout.
  have hholds : Room.Holds ⟨fun _ _ => true⟩ (declared parts).length := by
    intro held wanted _
    rfl
  have hfree := compileWithin_declaration hsizes hholds
  rcases compileWithin_cases ⟨fun _ _ => true⟩ (String.join (parts.map Part.format)) with
    ⟨-, h⟩ | ⟨fault, hfaulty, -⟩ | ⟨n, h⟩
  · rw [h] at hfree
    split_ifs at hfree with hle
    exact ⟨hle, Except.ok.inj hfree⟩
  · exact absurd haccepted hfaulty.not_accepted
  · rw [h] at hfree
    split_ifs at hfree
    cases hfree

/-! ## Repeated names -/

/-- The first name of a list that occurs earlier in it. -/
def FirstRepeated (names : List String) (repeated : String) : Prop :=
  ∃ before after, names = before ++ repeated :: after ∧ repeated ∈ before ∧ before.Nodup

namespace Record

/-- No name is found where all are new. -/
lemma firstRepeated?_eq_none {seen names : List String} (hnodup : names.Nodup)
    (hnew : ∀ name ∈ names, name ∉ seen) : firstRepeated? seen names = none := by
  induction names generalizing seen with
  | nil => rfl
  | cons name names ih =>
    obtain ⟨hname, hnodup⟩ := List.nodup_cons.mp hnodup
    obtain ⟨hfirst, hrest⟩ := List.forall_mem_cons.mp hnew
    have hseen : seen.contains name = false := by simpa using hfirst
    rw [firstRepeated?, hseen, if_neg Bool.false_ne_true]
    refine ih hnodup ?_
    intro other hother hmem
    rcases List.mem_cons.mp hmem with rfl | hmem
    · exact hname hother
    · exact hrest other hother hmem

/-- Where a name has occurred before, the first such name is found.  The names in front of it are
new, to each other and to those that have been seen. -/
lemma exists_firstRepeated? {seen names : List String}
    (hold : ¬ (names.Nodup ∧ ∀ name ∈ names, name ∉ seen)) :
    ∃ repeated before after, firstRepeated? seen names = some repeated ∧
      names = before ++ repeated :: after ∧ (repeated ∈ seen ∨ repeated ∈ before) ∧
      before.Nodup ∧ ∀ name ∈ before, name ∉ seen := by
  induction names generalizing seen with
  | nil => simp at hold
  | cons name names ih =>
    by_cases hname : name ∈ seen
    · have hseen : seen.contains name = true := by simpa using hname
      refine ⟨name, [], names, ?_, rfl, Or.inl hname, List.nodup_nil, by simp⟩
      rw [firstRepeated?, hseen, if_pos rfl]
    · have hseen : seen.contains name = false := by simpa using hname
      have hrest : ¬ (names.Nodup ∧ ∀ other ∈ names, other ∉ name :: seen) := by
        rintro ⟨hnodup, hnew⟩
        refine hold ⟨List.nodup_cons.mpr ⟨?_, hnodup⟩, List.forall_mem_cons.mpr ⟨hname, ?_⟩⟩
        · intro hmem
          exact hnew name hmem List.mem_cons_self
        · intro other hother hmem
          exact hnew other hother (List.mem_cons_of_mem _ hmem)
      obtain ⟨repeated, before, after, hfound, rfl, hmem, hnodup, hnew⟩ := ih hrest
      refine ⟨repeated, name :: before, after, ?_, rfl, ?_, ?_, ?_⟩
      · rw [firstRepeated?, hseen, if_neg Bool.false_ne_true, hfound]
      · rcases hmem with hmem | hmem
        · rcases List.mem_cons.mp hmem with rfl | hmem
          · exact Or.inr List.mem_cons_self
          · exact Or.inl hmem
        · exact Or.inr (List.mem_cons_of_mem _ hmem)
      · refine List.nodup_cons.mpr ⟨?_, hnodup⟩
        intro hmem
        exact hnew name hmem List.mem_cons_self
      · refine List.forall_mem_cons.mpr ⟨hname, ?_⟩
        intro other hother hmem
        exact hnew other hother (List.mem_cons_of_mem _ hmem)

/-! ## Records -/

/-- A declaration without repeated names is built from the layout of its fields. -/
theorem buildWithin_of_nodup {room : Room} {parts : List Part} (name : String)
    (hnames : (parts.filterMap Part.name?).Nodup) (hsizes : ∀ part ∈ parts, part.size ≤ maxSize)
    (hroom : room.Holds (declared parts).length) :
    buildWithin room name parts =
      if (parts.map Part.size).sum ≤ maxSize then
        .ok ⟨name, parts.filterMap Part.name?,
          .ofFields (String.join (parts.map Part.format)) (declared parts)⟩
      else .error (.format .sizeOverflow) := by
  have hnone : firstRepeated? [] (parts.filterMap Part.name?) = none :=
    firstRepeated?_eq_none hnames (by simp)
  simp only [buildWithin, hnone, Layout.compileWithin_declaration hsizes hroom]
  split_ifs <;> rfl

lemma buildWithin_of_not_nodup {parts : List Part} (room : Room) (name : String)
    (hnames : ¬ (parts.filterMap Part.name?).Nodup) :
    ∃ repeated, FirstRepeated (parts.filterMap Part.name?) repeated ∧
      buildWithin room name parts = .error (.duplicateField repeated) := by
  have hold : ¬ ((parts.filterMap Part.name?).Nodup ∧
      ∀ other ∈ parts.filterMap Part.name?, other ∉ ([] : List String)) := fun h => hnames h.1
  obtain ⟨repeated, before, after, hfound, hsplit, hmem, hnodup, -⟩ := exists_firstRepeated? hold
  refine ⟨repeated, ⟨before, after, hsplit, by simpa using hmem, hnodup⟩, ?_⟩
  simp only [buildWithin, hfound]

end Record

/-- A field stands where those before it end. -/
lemma getElem?_placed (offset : ℕ) (before : List Field) (f : Field) (after : List Field) :
    (placed offset (before ++ f :: after))[before.length]? =
      some ⟨f.tag, f.count, offset + Field.total before⟩ := by
  have hlength : (placed offset before).length = before.length := by
    rw [← List.length_map Slot.field, map_field_placed]
  rw [placed_append, List.getElem?_append_right hlength.le, hlength, Nat.sub_self]
  rfl

/-- The slots with values are those of the fields with values. -/
lemma map_field_carriers (format : String) (fs : List Field) :
    (Layout.ofFields format fs).carriers.map Slot.field =
      fs.filter fun f => f.tag.hasValue := by
  have hmap := map_field_placed 0 fs
  calc
    ((placed 0 fs).filter fun s => s.tag.hasValue).map Slot.field
        = ((placed 0 fs).map Slot.field).filter fun f => f.tag.hasValue := by
      rw [List.filter_map]
      rfl
    _ = fs.filter fun f => f.tag.hasValue := by rw [hmap]

namespace Record

/-- **A declaration gives the layout that it says.**  Of a declaration with capacities and pads of
at most the largest size, in a room that holds its fields: if a name is repeated, the fault is the
first such name; otherwise, if the declared sizes are too much together, the fault is that, and else
there is a record.  It has the declared names, as many values as names, and the fields of the
declared types; and each part that stands for a field has its slot at the exact sum of the sizes
declared before it. -/
theorem buildWithin_declaration (room : Room) (name : String) (parts : List Part)
    (hsizes : ∀ part ∈ parts, part.size ≤ maxSize)
    (hroom : room.Holds (parts.filterMap Part.field?).length) :
    (¬ (parts.filterMap Part.name?).Nodup →
      ∃ repeated, FirstRepeated (parts.filterMap Part.name?) repeated ∧
        buildWithin room name parts = .error (.duplicateField repeated)) ∧
    ((parts.filterMap Part.name?).Nodup → maxSize < (parts.map Part.size).sum →
      buildWithin room name parts = .error (.format .sizeOverflow)) ∧
    ((parts.filterMap Part.name?).Nodup → (parts.map Part.size).sum ≤ maxSize →
      ∃ r, buildWithin room name parts = .ok r ∧ r.name = name ∧
        r.fieldNames = parts.filterMap Part.name? ∧ r.layout.arity = r.fieldNames.length ∧
        r.layout.carriers.map Slot.field =
          (parts.filterMap Part.type?).map FieldType.field ∧
        r.layout.slots.map Slot.field = parts.filterMap Part.field? ∧
        ∀ before part after f, parts = before ++ part :: after → part.field? = some f →
          r.layout.slots[(before.filterMap Part.field?).length]? =
            some ⟨f.tag, f.count, (before.map Part.size).sum⟩) := by
  refine ⟨buildWithin_of_not_nodup room name, ?_, ?_⟩
  · intro hnames hover
    rw [buildWithin_of_nodup name hnames hsizes hroom, if_neg (not_le.mpr hover)]
  · intro hnames hfits
    refine ⟨_, (buildWithin_of_nodup name hnames hsizes hroom).trans (if_pos hfits), rfl, rfl, ?_,
      ?_, map_field_placed 0 _, ?_⟩
    · change (declared parts).countP (fun f => f.tag.hasValue) = _
      rw [List.countP_eq_length_filter, filter_declared, List.length_map, length_types]
    · rw [map_field_carriers, filter_declared]
    · rintro before part after f rfl hfield
      change (placed 0 (declared (before ++ part :: after)))[(declared before).length]? = _
      rw [declared_append, declared_cons_some hfield, getElem?_placed, Nat.zero_add,
        total_declared]

/-- Capacities of zero and the largest pad that fits; the pad of no bytes leaves no trace. -/
theorem buildWithin_declaration_full :
    ∃ r, build "Sample" [.field "id" .uint16, .pad 0, .field "tag" (.pascal 0), .field "text" .dynamic,
        .pad 0xfffffffffffffff9, .field "count" .int32] = .ok r ∧
      r.fieldNames = ["id", "tag", "text", "count"] ∧ r.layout.arity = 4 ∧
      r.layout.slots[4]? = some ⟨.int32, 1, 0xfffffffffffffffb⟩ := by
  obtain ⟨r, hr, -, hnames, harity, -, -, hslots⟩ := (buildWithin_declaration .standard "Sample"
    [.field "id" .uint16, .pad 0, .field "tag" (.pascal 0), .field "text" .dynamic,
      .pad 0xfffffffffffffff9, .field "count" .int32] (by decide)
    (Room.standard_holds.mono (by decide))).2.2 (by decide) (by decide)
  exact ⟨r, hr, hnames, by rw [harity, hnames]; rfl, hslots
    [.field "id" .uint16, .pad 0, .field "tag" (.pascal 0), .field "text" .dynamic,
      .pad 0xfffffffffffffff9] (.field "count" .int32) [] _ rfl rfl⟩

end Record

end PackedRecord
