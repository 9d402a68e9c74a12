import Mathlib
import PackedRecord.Layout.Compile

/-!
# Fields in a row

A layout is its fields placed one after the other.  This file says so: `Layout.ofFields` builds the
layout of a list of fields in one stroke, and `Draft.add_cases` shows that each step of the compiler
does nothing but lengthen that list, by the *expansion* of a tag with its count.

What the engines need to know of a layout is collected in `Layout.WellFormed`: the slots tile the
static region from offset zero on (`Tiled`), the region is as long as `size` says and a size itself,
`arity` counts the slots that take a value, and every slot has a count that its tag allows.  A
layout made by `Layout.ofFields` has all of this (`Layout.ofFields_wellFormed`).
-/

namespace PackedRecord

/-! ## Checked ends -/

/-- A product added to a size is checked twice, but the checks fail exactly where the result is no
size. -/
lemma mulSize?_bind_addSize? (size width count : ℕ) :
    (mulSize? width count).bind (addSize? size) =
      if size + width * count ≤ maxSize then some (size + width * count) else none := by
  unfold mulSize? addSize?
  by_cases hmul : width * count ≤ maxSize
  · simp [hmul]
  · rw [if_neg hmul, if_neg (by omega)]
    rfl

/-! ## Fields without a place -/

/-- A field before it is placed. -/
structure Field where
  tag : Tag
  count : ℕ
  deriving DecidableEq, Repr

/-- Bytes of the static region that a field takes. -/
def Field.size (f : Field) : ℕ := f.tag.width * f.count

/-- The counts that a compiled field can have: a capacity of `s` or `p` is any number, a pad has at
least one byte, and a field of any other kind stands for itself. -/
def Field.Proper (f : Field) : Prop :=
  match f.tag.kind with
  | .fixedBytes | .pascalString => True
  | .pad => f.count ≠ 0
  | _ => f.count = 1

/-- Bytes of the static region that fields take together, without any bound. -/
def Field.total (fs : List Field) : ℕ := (fs.map Field.size).sum

@[simp] lemma Field.total_nil : Field.total [] = 0 := rfl

@[simp] lemma Field.total_cons (f : Field) (fs : List Field) :
    Field.total (f :: fs) = f.size + Field.total fs := by
  simp [Field.total]

@[simp] lemma Field.total_append (fs gs : List Field) :
    Field.total (fs ++ gs) = Field.total fs + Field.total gs := by
  simp [Field.total]

/-- The field of a slot. -/
def Slot.field (s : Slot) : Field := ⟨s.tag, s.count⟩

/-- The fields that a tag with a count stands for. -/
def Tag.expansion (t : Tag) (count : ℕ) : List Field :=
  match t.kind with
  | .pad => if count = 0 then [] else [⟨t, count⟩]
  | .fixedBytes | .pascalString => [⟨t, count⟩]
  | _ => List.replicate count ⟨t, 1⟩

lemma Field.total_replicate (t : Tag) (n : ℕ) :
    Field.total (List.replicate n ⟨t, 1⟩) = t.width * n := by
  simp [Field.total, Field.size, Nat.mul_comm]

/-- However a tag is expanded, its fields take the width as many times as the count says. -/
@[simp] lemma Tag.total_expansion (t : Tag) (count : ℕ) :
    Field.total (t.expansion count) = t.width * count := by
  unfold Tag.expansion
  split
  · by_cases h : count = 0 <;> simp [h, Field.total, Field.size]
  · simp [Field.total, Field.size]
  · simp [Field.total, Field.size]
  · exact Field.total_replicate t count

lemma Tag.proper_of_mem_expansion {t : Tag} {count : ℕ} {f : Field}
    (hf : f ∈ t.expansion count) : f.Proper := by
  cases hk : t.kind with
  | pad =>
    by_cases h : count = 0
    · simp [Tag.expansion, hk, h] at hf
    · simp only [Tag.expansion, hk, h, if_false, List.mem_singleton] at hf
      subst hf
      simpa [Field.Proper, hk] using h
  | fixedBytes | pascalString =>
    simp only [Tag.expansion, hk, List.mem_singleton] at hf
    subst hf
    simp [Field.Proper, hk]
  | signedInt | unsignedInt | float32 | float64 | bool | char | dynamicString =>
    simp only [Tag.expansion, hk, List.mem_replicate] at hf
    obtain ⟨-, rfl⟩ := hf
    simp [Field.Proper, hk]

/-! ## Placing fields -/

/-- Fields placed one after the other from `offset` on. -/
def placed (offset : ℕ) : List Field → List Slot
  | [] => []
  | f :: fs => ⟨f.tag, f.count, offset⟩ :: placed (offset + f.size) fs

lemma placed_append (offset : ℕ) (fs gs : List Field) :
    placed offset (fs ++ gs) = placed offset fs ++ placed (offset + Field.total fs) gs := by
  induction fs generalizing offset with
  | nil => rfl
  | cons f fs ih => simp [placed, ih, Nat.add_assoc]

@[simp] lemma map_field_placed (offset : ℕ) (fs : List Field) :
    (placed offset fs).map Slot.field = fs := by
  induction fs generalizing offset with
  | nil => rfl
  | cons f fs ih => simp [placed, ih, Slot.field]

/-- The layout that holds the given fields, one after the other. -/
def Layout.ofFields (format : String) (fs : List Field) : Layout where
  format := format
  slots := placed 0 fs
  size := Field.total fs
  arity := fs.countP fun f => f.tag.hasValue
  dynamic := fs.any fun f => f.tag == .dynamic

/-! ## The compiler places fields in a row -/

/-- A draft with more fields at its end. -/
def Draft.extend (d : Draft) (fs : List Field) : Draft where
  slots := d.slots ++ (placed d.size fs).toArray
  size := d.size + Field.total fs
  arity := d.arity + fs.countP fun f => f.tag.hasValue
  dynamic := d.dynamic || fs.any fun f => f.tag == .dynamic

namespace Draft

@[simp] lemma size_extend (d : Draft) (fs : List Field) :
    (d.extend fs).size = d.size + Field.total fs := rfl

@[simp] lemma extend_nil (d : Draft) : d.extend [] = d := by
  simp [extend, placed]

lemma extend_extend (d : Draft) (fs gs : List Field) :
    (d.extend fs).extend gs = d.extend (fs ++ gs) := by
  simp [extend, placed_append, Nat.add_assoc, Bool.or_assoc]

lemma place_eq (d : Draft) (t : Tag) (count : ℕ) :
    d.place t count =
      if d.size + t.width * count ≤ maxSize then .ok (d.extend [⟨t, count⟩])
      else .error .sizeOverflow := by
  unfold place
  rw [mulSize?_bind_addSize?]
  by_cases hfits : d.size + t.width * count ≤ maxSize
  · simp only [hfits, if_true, extend, placed, Except.ok.injEq, Draft.mk.injEq]
    refine ⟨by simp, by simp [Field.total, Field.size], ?_, by simp⟩
    cases hv : t.hasValue <;> simp [hv]
  · simp [hfits]

lemma placeMany_eq {d : Draft} {t : Tag} {n : ℕ} (hfits : d.size + t.width * n ≤ maxSize) :
    d.placeMany t n = .ok (d.extend (List.replicate n ⟨t, 1⟩)) := by
  induction n generalizing d with
  | zero => simp [placeMany]
  | succ n ih =>
    have hsplit : t.width * (n + 1) = t.width + t.width * n := by ring
    have hone : d.size + t.width * 1 ≤ maxSize := by omega
    rw [placeMany, place_eq, if_pos hone]
    have hrest : (d.extend [⟨t, 1⟩]).size + t.width * n ≤ maxSize := by
      simp only [size_extend, Field.total_cons, Field.total_nil, Field.size]
      omega
    simp only [ih hrest, extend_extend]
    rfl

/-- **The three ends of adding a tag.**  Its expansion is placed at the end of the draft; or the
static region would leave the range of sizes; or it would not, and there is no room for the
repeated slots. -/
theorem add_cases (room : Room) {d : Draft} (hd : d.size ≤ maxSize) (t : Tag) (count : ℕ) :
    (d.size + t.width * count ≤ maxSize ∧
        d.add room t count = .ok (d.extend (t.expansion count))) ∨
      (maxSize < d.size + t.width * count ∧ d.add room t count = .error .sizeOverflow) ∨
      (d.size + t.width * count ≤ maxSize ∧
        d.add room t count = .error (.tooManyFields count)) := by
  have hall : d.size + t.width * count ≤ maxSize →
      d.placeAll room t count = .ok (d.extend (List.replicate count ⟨t, 1⟩)) ∨
        d.placeAll room t count = .error (.tooManyFields count) := by
    intro hfits
    unfold placeAll
    split
    · exact Or.inl (placeMany_eq hfits)
    · exact Or.inr rfl
  by_cases hfits : d.size + t.width * count ≤ maxSize
  · -- No size overflow: what is left to decide is the room, for the tags that are repeated.
    have hplace : d.place t count = .ok (d.extend [⟨t, count⟩]) := by
      rw [place_eq, if_pos hfits]
    cases hk : t.kind with
    | pad =>
      refine Or.inl ⟨hfits, ?_⟩
      by_cases hzero : count = 0 <;> simp [add, Tag.expansion, hk, hzero, ← hplace]
    | fixedBytes | pascalString =>
      exact Or.inl ⟨hfits, by simp only [add, Tag.expansion, hk, hplace]⟩
    | dynamicString =>
      rcases hall hfits with h | h
      · exact Or.inl ⟨hfits, by simp only [add, Tag.expansion, hk, h]⟩
      · exact Or.inr (Or.inr ⟨hfits, by simp only [add, hk, h]⟩)
    | signedInt | unsignedInt | float32 | float64 | bool | char =>
      have hsize := (mulSize?_bind_addSize? d.size t.width count).trans (if_pos hfits)
      rcases hall hfits with h | h
      · exact Or.inl ⟨hfits, by simp only [add, Tag.expansion, hk, hsize, h]⟩
      · exact Or.inr (Or.inr ⟨hfits, by simp only [add, hk, hsize, h]⟩)
  · refine Or.inr (Or.inl ⟨by omega, ?_⟩)
    have hplace : d.place t count = .error .sizeOverflow := by
      rw [place_eq, if_neg hfits]
    cases hk : t.kind with
    | pad =>
      have hne : count ≠ 0 := by
        rintro rfl
        omega
      simp only [add, hk, if_neg hne, hplace]
    | fixedBytes | pascalString => simp only [add, hk, hplace]
    | dynamicString =>
      -- A dynamic string has no static bytes, so it cannot be what leaves the range.
      have hwidth : t.width = 0 := by cases t <;> first | rfl | cases hk
      rw [hwidth] at hfits
      omega
    | signedInt | unsignedInt | float32 | float64 | bool | char =>
      simp only [add, hk, mulSize?_bind_addSize?, if_neg hfits]

end Draft

/-! ## Well-formed layouts -/

/-- The slots stand one after the other from `offset` on. -/
def Tiled : ℕ → List Slot → Prop
  | _, [] => True
  | offset, s :: ss => s.offset = offset ∧ Tiled (offset + s.size) ss

/-- Bytes of the static region that slots take together. -/
def staticSize (slots : List Slot) : ℕ := (slots.map Slot.size).sum

@[simp] lemma staticSize_nil : staticSize [] = 0 := rfl

@[simp] lemma staticSize_cons (s : Slot) (ss : List Slot) :
    staticSize (s :: ss) = s.size + staticSize ss := by
  simp [staticSize]

lemma tiled_placed (offset : ℕ) (fs : List Field) : Tiled offset (placed offset fs) := by
  induction fs generalizing offset with
  | nil => trivial
  | cons f fs ih => exact ⟨rfl, ih _⟩

lemma staticSize_placed (offset : ℕ) (fs : List Field) :
    staticSize (placed offset fs) = Field.total fs := by
  induction fs generalizing offset with
  | nil => rfl
  | cons f fs ih => simp [placed, ih, Slot.size, Field.size]

/-- What holds of every compiled layout. -/
structure Layout.WellFormed (l : Layout) : Prop where
  tiled : Tiled 0 l.slots
  proper : ∀ s ∈ l.slots, s.field.Proper
  size_eq : l.size = staticSize l.slots
  size_le : l.size ≤ maxSize
  arity_eq : l.arity = l.carriers.length
  dynamic_eq : l.dynamic = l.slots.any fun s => s.tag == .dynamic

/-- The fields of a layout that is not dynamic decide no length of their own. -/
lemma Layout.WellFormed.static_iff {l : Layout} (hl : l.WellFormed) :
    l.dynamic = false ↔ ∀ s ∈ l.slots, s.tag ≠ .dynamic := by
  rw [hl.dynamic_eq, List.any_eq_false]
  simp only [beq_iff_eq, ne_eq]

theorem Layout.ofFields_wellFormed (format : String) {fs : List Field}
    (hproper : ∀ f ∈ fs, f.Proper) (hsize : Field.total fs ≤ maxSize) :
    (Layout.ofFields format fs).WellFormed where
  tiled := tiled_placed 0 fs
  proper := by
    intro s hs
    apply hproper
    have hmem := List.mem_map_of_mem (f := Slot.field) hs
    simpa [ofFields] using hmem
  size_eq := (staticSize_placed 0 fs).symm
  size_le := hsize
  arity_eq := by
    have hmap := map_field_placed 0 fs
    calc
      fs.countP (fun f => f.tag.hasValue)
          = ((placed 0 fs).map Slot.field).countP (fun f => f.tag.hasValue) := by rw [hmap]
      _ = ((placed 0 fs).filter fun s => s.tag.hasValue).length := by
        rw [List.countP_map, List.countP_eq_length_filter]
        rfl
  dynamic_eq := by
    have hmap := map_field_placed 0 fs
    calc
      fs.any (fun f => f.tag == .dynamic)
          = ((placed 0 fs).map Slot.field).any (fun f => f.tag == .dynamic) := by rw [hmap]
      _ = (placed 0 fs).any fun s => s.tag == .dynamic := by
        rw [List.any_map]
        rfl

end PackedRecord
