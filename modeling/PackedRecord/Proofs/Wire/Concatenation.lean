import Mathlib
import PackedRecord.Proofs.Format.Concatenation
import PackedRecord.Proofs.Wire.Decoding
import PackedRecord.Proofs.Wire.Writer

/-!
# Records in a row

Layouts are put together as their formats are: the fields of the second follow those of the first,
*raised* by the static bytes of the first (`Slot.raise`, and `l ++ m` for layouts).  The layout of
two formats in a row is the layouts of the two put together (`Layout.compileWithin_append`).

A record of such a layout is a record of the first and a record of the second, both when it is
packed and when it is unpacked.  In the engines the fields of the second layout run at other offsets
and with another shift than by themselves.  But what the engines do has been described without
either, by pieces that come one after the other, and the piece of a field does not depend on its
offset: all that is left to show is that pieces, the values for them and the values in them can be
divided where the first layout ends.
-/

namespace PackedRecord

/-! ## Raised slots -/

/-- The same field with `k` more static bytes in front. -/
def Slot.raise (k : ℕ) (s : Slot) : Slot := { s with offset := s.offset + k }

namespace Slot

variable (k : ℕ) (s : Slot)

@[simp] lemma tag_raise : (s.raise k).tag = s.tag := rfl

@[simp] lemma payload_raise (policy : Policy) (v : Value) :
    (s.raise k).payload policy v = s.payload policy v := rfl

@[simp] lemma fills_raise (piece : List UInt8) : (s.raise k).Fills piece ↔ s.Fills piece := Iff.rfl

@[simp] lemma decode?_raise (piece : List UInt8) : (s.raise k).decode? piece = s.decode? piece :=
  rfl

end Slot

/-- Fields that are placed further back are the raised slots. -/
lemma placed_raise (k offset : ℕ) (fs : List Field) :
    placed (offset + k) fs = (placed offset fs).map (Slot.raise k) := by
  induction fs generalizing offset with
  | nil => rfl
  | cons f fs ih =>
    have hrest := ih (offset + f.size)
    rw [Nat.add_right_comm] at hrest
    rw [placed, placed, List.map_cons, hrest]
    rfl

/-! ## Layouts in a row -/

namespace Layout

/-- The fields of `l`, and behind them the fields of `m`. -/
def append (l m : Layout) : Layout where
  format := l.format ++ m.format
  slots := l.slots ++ m.slots.map (Slot.raise l.size)
  size := l.size + m.size
  arity := l.arity + m.arity
  dynamic := l.dynamic || m.dynamic

instance : Append Layout := ⟨append⟩

variable (l m : Layout)

@[simp] lemma slots_append : (l ++ m).slots = l.slots ++ m.slots.map (Slot.raise l.size) := rfl

@[simp] lemma arity_append : (l ++ m).arity = l.arity + m.arity := rfl

lemma ofFields_append (f g : String) (fs gs : List Field) :
    ofFields (f ++ g) (fs ++ gs) = ofFields f fs ++ ofFields g gs := by
  have hplaced := placed_raise (Field.total fs) 0 gs
  show ofFields (f ++ g) (fs ++ gs) = append (ofFields f fs) (ofFields g gs)
  simp [ofFields, append, placed_append, ← hplaced]

/-- **Formats in a row.**  Where there is room for the slots of both, the layout of two formats is
the layouts of the two put together. -/
theorem compileWithin_append {room₁ room₂ room : Room} {f g : String} {l m : Layout}
    (hl : compileWithin room₁ f = .ok l) (hm : compileWithin room₂ g = .ok m)
    (hg : g.toList.find? (fun c => !Text.isBlank c) ≠ some '<') (hsize : l.size + m.size ≤ maxSize)
    (hroom : ∀ n, compileWithin room (f ++ g) ≠ .error (.tooManyFields n)) :
    compileWithin room (f ++ g) = .ok (l ++ m) := by
  obtain ⟨hf, rfl⟩ := compileWithin_eq_ok hl
  obtain ⟨hg', rfl⟩ := compileWithin_eq_ok hm
  have hmarks := Format.marks_append hg (f := f)
  have hfields : Format.fields (Format.marks (f ++ g)) =
      Format.fields (Format.marks f) ++ Format.fields (Format.marks g) := by
    rw [hmarks, hf.fields_append, Format.fields_move]
  have haccepted : Format.Accepted (Format.marks (f ++ g)) := by
    rw [hmarks]
    refine hf.append (hg'.move _) ?_
    rw [Format.total_move, ← Format.total_fields, ← Format.total_fields]
    exact hsize
  rcases compileWithin_cases room (f ++ g) with ⟨-, h⟩ | ⟨fault, hfault, -⟩ | ⟨n, h⟩
  · rw [h, hfields, ofFields_append]
  · exact absurd haccepted hfault.not_accepted
  · exact absurd h (hroom n)

end Layout

/-! ## Packing -/

lemma Encodes.raise {slots : List Slot} {values : List Value} {pieces : List (List UInt8)}
    (henc : Encodes slots values pieces) (k : ℕ) :
    Encodes (slots.map (Slot.raise k)) values pieces := by
  induction henc with
  | nil => exact .nil
  | pad hs _ ih => exact .pad hs ih
  | field hs hpiece _ ih => exact .field hs hpiece ih

lemma Encodes.append {slots slots' : List Slot} {v w : List Value} {p q : List (List UInt8)}
    (hv : Encodes slots v p) (hw : Encodes slots' w q) :
    Encodes (slots ++ slots') (v ++ w) (p ++ q) := by
  induction hv with
  | nil => exact hw
  | pad hs _ ih => exact .pad hs ih
  | field hs hpiece _ ih => exact .field hs hpiece ih

/-- The values of the first fields go to the first fields, and the others to the others. -/
lemma assignment_append {slots : List Slot} {v : List Value}
    (hv : v.length = (slots.filter fun s => s.tag.hasValue).length) (slots' : List Slot)
    (w : List Value) :
    assignment (slots ++ slots') (v ++ w) = assignment slots v ++ assignment slots' w := by
  rw [assignment, List.filter_append, List.zip_append hv.symm]
  rfl

lemma assignment_raise (k : ℕ) (slots : List Slot) (values : List Value) :
    assignment (slots.map (Slot.raise k)) values =
      (assignment slots values).map fun f => (f.1.raise k, f.2) := by
  simp only [assignment, List.filter_map, Function.comp_def, Slot.tag_raise, List.zip_map_left]
  rfl

namespace Layout

variable {l m : Layout} {policy : Policy} {v w : List Value}

/-- A policy takes the values of two records if it takes those of either. -/
lemma takes_append (hl : l.WellFormed) (hv : v.length = l.arity) :
    policy.Takes (assignment (l ++ m).slots (v ++ w)) ↔
      policy.Takes (assignment l.slots v) ∧ policy.Takes (assignment m.slots w) := by
  have hlength : v.length = (l.slots.filter fun s => s.tag.hasValue).length := by
    rw [hv, hl.arity_eq]
    rfl
  rw [slots_append, assignment_append hlength, assignment_raise]
  simp only [Policy.Takes, List.forall_mem_append, List.forall_mem_map, Slot.payload_raise]

/-- **A record of two layouts is packed as two records**, one behind the other, if they are not too
long together. -/
theorem packWith_append (hl : l.WellFormed) (hm : m.WellFormed) (hlm : (l ++ m).WellFormed)
    (hv : v.length = l.arity) {bytes : Array UInt8} :
    (l ++ m).packWith policy (v ++ w) = .ok bytes ↔
      ∃ a b, l.packWith policy v = .ok a ∧ m.packWith policy w = .ok b ∧
        a.size + b.size ≤ maxSize ∧ bytes = a ++ b := by
  constructor
  · intro h
    obtain ⟨harity, htakes⟩ := takes_of_packWith h
    rw [List.length_append, arity_append, hv, Nat.add_left_cancel_iff] at harity
    obtain ⟨htakesv, htakesw⟩ := (takes_append hl hv).mp htakes
    obtain ⟨p, hp⟩ := exists_encodes_of_takes hl hv htakesv
    obtain ⟨q, hq⟩ := exists_encodes_of_takes hm harity htakesw
    have hpack := packWith_of_encodes hlm (hp.append (hq.raise l.size)) htakes
    rw [h, List.flatten_append, List.length_append] at hpack
    split at hpack
    · next hfits =>
      have ha := packWith_of_encodes hl hp htakesv
      have hb := packWith_of_encodes hm hq htakesw
      rw [if_pos (by omega)] at ha hb
      refine ⟨_, _, ha, hb, hfits, ?_⟩
      rw [Except.ok.inj hpack, List.append_toArray]
    · cases hpack
  · rintro ⟨a, b, ha, hb, hfits, rfl⟩
    obtain ⟨p, hp, htakesv, -, hpa⟩ := encodes_of_packWith hl ha
    obtain ⟨q, hq, htakesw, -, hqb⟩ := encodes_of_packWith hm hb
    have htakes := (takes_append hl hv (m := m)).mpr ⟨htakesv, htakesw⟩
    have hflatten : (p ++ q).flatten = (a ++ b).toList := by
      rw [List.flatten_append, ← hpa, ← hqb, Array.toList_append]
    rw [packWith_of_encodes hlm (hp.append (hq.raise l.size)) htakes, hflatten, if_pos]
    rwa [Array.length_toList, Array.size_append]

end Layout

/-! ## Unpacking -/

/-- Pieces of two records are pieces of the first and pieces of the second. -/
lemma fills_append {k : ℕ} {slots slots' : List Slot} {pieces : List (List UInt8)} :
    List.Forall₂ Slot.Fills (slots ++ slots'.map (Slot.raise k)) pieces ↔
      ∃ p q, pieces = p ++ q ∧ List.Forall₂ Slot.Fills slots p ∧
        List.Forall₂ Slot.Fills slots' q := by
  induction slots generalizing pieces with
  | nil => simp [List.forall₂_map_left_iff]
  | cons s slots ih =>
    rw [List.cons_append, List.forall₂_cons_left_iff]
    constructor
    · rintro ⟨piece, rest, hpiece, hrest, rfl⟩
      obtain ⟨p, q, rfl, hp, hq⟩ := ih.mp hrest
      exact ⟨piece :: p, q, rfl, .cons hpiece hp, hq⟩
    · rintro ⟨_, q, rfl, hp, hq⟩
      obtain ⟨piece, p, hpiece, hrest, rfl⟩ := List.forall₂_cons_left_iff.mp hp
      exact ⟨piece, p ++ q, hpiece, ih.mpr ⟨p, q, rfl, hrest, hq⟩, rfl⟩

lemma decoded_raise (k : ℕ) (slots : List Slot) (pieces : List (List UInt8)) :
    decoded (slots.map (Slot.raise k)) pieces = decoded slots pieces := by
  simp [decoded, List.zip_map_left, List.filterMap_map, Function.comp_def]

lemma decoded_append {slots : List Slot} {p : List (List UInt8)}
    (hp : List.Forall₂ Slot.Fills slots p) (slots' : List Slot) (q : List (List UInt8)) :
    decoded (slots ++ slots') (p ++ q) = decoded slots p ++ decoded slots' q := by
  rw [decoded, List.zip_append hp.length_eq, List.filterMap_append]
  rfl

namespace Layout

variable {l m : Layout}

/-- **A record of two layouts is unpacked as two records**, the second from where the first has
ended. -/
theorem unpackFront_append (hl : l.WellFormed) (hm : m.WellFormed) (hlm : (l ++ m).WellFormed)
    {buffer : Array UInt8} (hbuffer : buffer.size ≤ maxSize) {values : List Value} {consumed : ℕ} :
    (l ++ m).unpackFront buffer = .ok (values, consumed) ↔
      ∃ v c w d, l.unpackFront buffer = .ok (v, c) ∧
        m.unpackFront (buffer.extract c buffer.size) = .ok (w, d) ∧
        values = v ++ w ∧ consumed = c + d := by
  constructor
  · intro h
    obtain ⟨pieces, rest, hsplit, hfills, rfl, rfl, hle⟩ := (unpackFront_eq_ok_iff hlm).mp h
    obtain ⟨p, q, rfl, hp, hq⟩ := fills_append.mp hfills
    rw [List.flatten_append] at hsplit hle ⊢
    rw [List.length_append] at hle ⊢
    rw [List.append_assoc] at hsplit
    have hfirst : l.unpackFront buffer = .ok (decoded l.slots p, p.flatten.length) :=
      (unpackFront_eq_ok_iff hl).mpr ⟨p, _, hsplit, hp, rfl, rfl, by omega⟩
    have hsecond : m.unpackFront (buffer.extract p.flatten.length buffer.size) =
        .ok (decoded m.slots q, q.flatten.length) :=
      (unpackFront_eq_ok_iff hm).mpr
        ⟨q, rest, toList_extract_behind hsplit, hq, rfl, rfl, by omega⟩
    refine ⟨_, _, _, _, hfirst, hsecond, ?_, rfl⟩
    rw [slots_append, decoded_append hp, decoded_raise]
  · rintro ⟨v, c, w, d, hv, hw, rfl, rfl⟩
    obtain ⟨p, rest, hsplit, hp, rfl, rfl, -⟩ := (unpackFront_eq_ok_iff hl).mp hv
    obtain ⟨q, rest', hsplit', hq, rfl, rfl, -⟩ := (unpackFront_eq_ok_iff hm).mp hw
    rw [toList_extract_behind hsplit] at hsplit'
    subst hsplit'
    have hsize : buffer.size = p.flatten.length + (q.flatten.length + rest'.length) := by
      rw [← Array.length_toList, hsplit, List.length_append, List.length_append]
    refine (unpackFront_eq_ok_iff hlm).mpr ⟨p ++ q, rest', ?_, ?_, ?_, ?_, by omega⟩
    · rw [hsplit, List.flatten_append, List.append_assoc]
    · exact fills_append.mpr ⟨p, q, rfl, hp, hq⟩
    · rw [slots_append, decoded_append hp, decoded_raise]
    · rw [List.flatten_append, List.length_append]

/-- **Formats compose**, from the text to the bytes.  Where two formats compile, the second does not
begin with a `<`, and there is room for both, they compile one behind the other, to the layouts put
together.  Such a layout packs the values of two records exactly when either layout packs its own
and the bytes are not too many together, and gives the bytes of the one and then of the other.  It
unpacks a buffer exactly when the first layout does, and the second does what is behind the first
record, and gives the values of both. -/
theorem compileWithin_append_composes (room₁ room₂ room : Room) (f g : String) (l m : Layout)
    (hl : compileWithin room₁ f = .ok l) (hm : compileWithin room₂ g = .ok m)
    (hg : g.toList.find? (fun c => !Text.isBlank c) ≠ some '<') (hsize : l.size + m.size ≤ maxSize)
    (hroom : ∀ n, compileWithin room (f ++ g) ≠ .error (.tooManyFields n)) :
    compileWithin room (f ++ g) = .ok (l ++ m) ∧
      (∀ (policy : Policy) (v w : List Value) (bytes : Array UInt8), v.length = l.arity →
        ((l ++ m).packWith policy (v ++ w) = .ok bytes ↔
          ∃ a b, l.packWith policy v = .ok a ∧ m.packWith policy w = .ok b ∧
            a.size + b.size ≤ maxSize ∧ bytes = a ++ b)) ∧
      ∀ (buffer : Array UInt8) (values : List Value) (consumed : ℕ), buffer.size ≤ maxSize →
        ((l ++ m).unpackFront buffer = .ok (values, consumed) ↔
          ∃ v c w d, l.unpackFront buffer = .ok (v, c) ∧
            m.unpackFront (buffer.extract c buffer.size) = .ok (w, d) ∧
            values = v ++ w ∧ consumed = c + d) := by
  have hcompile := compileWithin_append hl hm hg hsize hroom
  have hwfl := wellFormed_of_compile hl
  have hwfm := wellFormed_of_compile hm
  have hwflm := wellFormed_of_compile hcompile
  refine ⟨hcompile, ?_, ?_⟩
  · intro policy v w bytes hv
    exact packWith_append hwfl hwfm hwflm hv
  · intro buffer values consumed hbuffer
    exact unpackFront_append hwfl hwfm hwflm hbuffer

/-- A dynamic string of the first format moves the fields of the second, beyond the pads between
them. -/
theorem compileWithin_append_composes_moved :
    ∃ l m, compileWithin .standard ("<S 2x" ++ " 4p h") = .ok (l ++ m) ∧
      (l ++ m).slots = placed 0 [⟨.dynamic, 1⟩, ⟨.pad, 2⟩, ⟨.pascal, 4⟩, ⟨.int16, 1⟩] ∧
      (l ++ m).packWith .standard ([.bytes [7, 8]] ++ [.bytes [1, 2, 3, 4], .int 70000]) =
        .ok #[2, 7, 8, 0, 0, 3, 1, 2, 3, 0x70, 0x11] ∧
      (l ++ m).unpackFront #[2, 7, 8, 0, 0, 3, 1, 2, 3, 0x70, 0x11, 9] =
        .ok ([.bytes [7, 8], .bytes [1, 2, 3], .int 4464], 11) := by
  have hcompile : compileWithin .standard ("<S 2x" ++ " 4p h") =
      .ok (ofFields "<S 2x 4p h" [⟨.dynamic, 1⟩, ⟨.pad, 2⟩, ⟨.pascal, 4⟩, ⟨.int16, 1⟩]) := rfl
  obtain ⟨happend, hpack, hunpack⟩ := compileWithin_append_composes .standard .standard .standard
    "<S 2x" " 4p h" (ofFields "<S 2x" [⟨.dynamic, 1⟩, ⟨.pad, 2⟩])
    (ofFields " 4p h" [⟨.pascal, 4⟩, ⟨.int16, 1⟩]) rfl rfl (by decide +kernel) (by decide +kernel)
    (by rw [hcompile]; intro n h; cases h)
  refine ⟨_, _, happend, rfl, (hpack _ _ _ _ rfl).mpr ?_, (hunpack _ _ _ (by decide)).mpr ?_⟩
  · exact ⟨#[2, 7, 8, 0, 0], #[3, 1, 2, 3, 0x70, 0x11], by decide +kernel, by decide +kernel,
      by decide, rfl⟩
  · exact ⟨[.bytes [7, 8]], 5, [.bytes [1, 2, 3], .int 4464], 6, by decide +kernel,
      by decide +kernel, rfl, rfl⟩

end Layout

end PackedRecord
