import Mathlib
import PackedRecord.Datum.Flatten
import PackedRecord.Datum.Rebuild

/-!
# Leaves and groups

Values know nothing of grouping, nesting and names.  A datum or a shape is a *group* of parts or it
is a leaf, and only its leaves give and take values, from left to right.

Both directions are reduced to the leaves here.  Flattening a datum is flattening its leaves, one
after the other (`Datum.emit_eq_leaves`).  Rebuilding a shape is rebuilding its leaves, one after the
other, and putting the result together (`Shape.rebuild_eq_leaves`); the putting together
(`Shape.group`) deals the data out to the parts by the number of their leaves and never fails.  Both
proofs are by induction on the tree with two cases, a leaf and a group, whatever the kind of group
(`Datum.induction`, `Shape.induction`).

The two trees do not have the same leaves.  An option and a sequence say in the datum what they hold:
the leaves of a datum include those of the items of its sequences.  A shape does not know how long a
sequence will be, and a sequence is one of its leaves.

`Shape.Holds` is the typing of data by shapes.  A datum of a shape without absent options consists of
data for the leaves of the shape (`Shape.Holds.exists_leaves`).
-/

namespace PackedRecord

/-! ## The leaves of a datum -/

namespace Datum

/-- The parts of a group; a leaf has none. -/
def parts? : Datum → Option (List Datum)
  | present d => some [d]
  | wrapper _ d => some [d]
  | sequence items => some items
  | tuple items => some items
  | tupleStruct _ items => some items
  | record _ fields => some (fields.map Prod.snd)
  | _ => none

mutual

/-- The leaves of a datum from left to right. -/
def leaves : Datum → List Datum
  | present d => d.leaves
  | wrapper _ d => d.leaves
  | sequence items => leavesOfAll items
  | tuple items => leavesOfAll items
  | tupleStruct _ items => leavesOfAll items
  | record _ fields => leavesOfFields fields
  | d => [d]

/-- The leaves of data from left to right. -/
def leavesOfAll : List Datum → List Datum
  | [] => []
  | d :: items => d.leaves ++ leavesOfAll items

/-- The leaves of named data from left to right. -/
def leavesOfFields : List (String × Datum) → List Datum
  | [] => []
  | (_, d) :: fields => d.leaves ++ leavesOfFields fields

end

lemma leavesOfAll_eq (items : List Datum) : leavesOfAll items = items.flatMap leaves := by
  induction items with
  | nil => rfl
  | cons d items ih => rw [leavesOfAll, ih, List.flatMap_cons]

lemma leavesOfFields_eq (fields : List (String × Datum)) :
    leavesOfFields fields = (fields.map Prod.snd).flatMap leaves := by
  induction fields with
  | nil => rfl
  | cons field fields ih => rw [leavesOfFields, ih, List.map_cons, List.flatMap_cons]

lemma leaves_of_leaf {d : Datum} (h : d.parts? = none) : d.leaves = [d] := by
  cases d <;> first | rfl | cases h

lemma leaves_of_group {d : Datum} {parts : List Datum} (h : d.parts? = some parts) :
    d.leaves = parts.flatMap leaves := by
  cases d <;> cases h
  case present | wrapper => simp [leaves]
  case record => rw [leaves, leavesOfFields_eq]
  all_goals rw [leaves, leavesOfAll_eq]

lemma sizeOf_lt_of_mem_parts {d part : Datum} {parts : List Datum} (h : d.parts? = some parts)
    (hpart : part ∈ parts) : sizeOf part < sizeOf d := by
  cases d <;> cases h
  case present | wrapper =>
    obtain rfl := List.mem_singleton.mp hpart
    decreasing_tactic
  case record name fields =>
    obtain ⟨field, hfield, rfl⟩ := List.mem_map.mp hpart
    have hlt := List.sizeOf_lt_of_mem hfield
    rcases field with ⟨label, part⟩
    simp only [Prod.mk.sizeOf_spec, record.sizeOf_spec] at hlt ⊢
    omega
  all_goals
    have hlt := List.sizeOf_lt_of_mem hpart
    simp only [sequence.sizeOf_spec, tuple.sizeOf_spec, tupleStruct.sizeOf_spec]
    omega

/-- Induction over a datum as leaves and groups. -/
@[elab_as_elim]
theorem induction {P : Datum → Prop} (leaf : ∀ d, d.parts? = none → P d)
    (group : ∀ d parts, d.parts? = some parts → (∀ part ∈ parts, P part) → P d) (d : Datum) :
    P d := by
  cases hparts : d.parts? with
  | none => exact leaf d hparts
  | some parts => exact group d parts hparts fun part hpart => induction leaf group part
termination_by sizeOf d
decreasing_by exact sizeOf_lt_of_mem_parts hparts hpart

/-- The leaves of a datum have no parts. -/
lemma parts?_of_mem_leaves {d leaf : Datum} (h : leaf ∈ d.leaves) : leaf.parts? = none := by
  induction d using Datum.induction with
  | leaf d hd =>
    rw [leaves_of_leaf hd] at h
    rwa [List.mem_singleton.mp h]
  | group d parts hd ih =>
    rw [leaves_of_group hd] at h
    obtain ⟨part, hpart, hleaf⟩ := List.mem_flatMap.mp h
    exact ih part hpart hleaf

end Datum

/-! ## Flattening, leaf by leaf -/

lemma emitAll_append (out : Array Value) (items items' : List Datum) :
    emitAll out (items ++ items') =
      match emitAll out items with
      | (out, .ok ()) => emitAll out items'
      | (out, .error fault) => (out, .error fault) := by
  induction items generalizing out with
  | nil => rfl
  | cons d items ih =>
    rw [List.cons_append, emitAll, emitAll]
    rcases d.emit out with ⟨out, fault | -⟩
    · rfl
    · exact ih out

lemma emitAll_singleton (out : Array Value) (d : Datum) : emitAll out [d] = d.emit out := by
  rw [emitAll]
  rcases d.emit out with ⟨out, fault | -⟩ <;> rfl

lemma emitFields_eq (out : Array Value) (fields : List (String × Datum)) :
    emitFields out fields = emitAll out (fields.map Prod.snd) := by
  induction fields generalizing out with
  | nil => rfl
  | cons field fields ih =>
    rw [emitFields, List.map_cons, emitAll]
    rcases field.2.emit out with ⟨out, fault | -⟩
    · rfl
    · exact ih out

namespace Datum

/-- A group is flattened as its parts are, one after the other. -/
lemma emit_of_group {d : Datum} {parts : List Datum} (h : d.parts? = some parts)
    (out : Array Value) : d.emit out = emitAll out parts := by
  cases d <;> cases h
  case present | wrapper => rw [emit, emitAll_singleton]
  case record => rw [emit, emitFields_eq]
  all_goals rw [emit]

/-- Data are flattened to their leaves, one after the other, if each of them is. -/
lemma emitAll_eq_leaves {items : List Datum}
    (hitems : ∀ d ∈ items, ∀ out, d.emit out = emitAll out d.leaves) (out : Array Value) :
    emitAll out items = emitAll out (items.flatMap leaves) := by
  induction items generalizing out with
  | nil => rfl
  | cons d items ih =>
    obtain ⟨hd, hitems⟩ := List.forall_mem_cons.mp hitems
    rw [List.flatMap_cons, emitAll_append, ← hd, emitAll]
    rcases d.emit out with ⟨out, fault | -⟩
    · rfl
    · exact ih hitems out

/-- **Flattening a datum is flattening its leaves.** -/
theorem emit_eq_leaves (d : Datum) (out : Array Value) : d.emit out = emitAll out d.leaves := by
  induction d using Datum.induction generalizing out with
  | leaf d hd => rw [leaves_of_leaf hd, emitAll_singleton]
  | group d parts hd ih => rw [leaves_of_group hd, emit_of_group hd, emitAll_eq_leaves ih]

end Datum

/-! ## The leaves of a shape -/

namespace Shape

/-- The parts of a group; a leaf has none. -/
def parts? : Shape → Option (List Shape)
  | option s => some [s]
  | wrapper _ s => some [s]
  | tuple items => some items
  | tupleStruct _ items => some items
  | record _ fields => some (fields.map Prod.snd)
  | _ => none

/-- A group of data in place of its parts; a leaf is the datum itself. -/
def assemble (s : Shape) (items : List Datum) : Datum :=
  match s with
  | option _ => .present (items.headD .absent)
  | wrapper name _ => .wrapper name (items.headD .absent)
  | tuple _ => .tuple items
  | tupleStruct name _ => .tupleStruct name items
  | record name fields => .record name ((fields.map Prod.fst).zip items)
  | _ => items.headD .absent

mutual

/-- The leaves of a shape from left to right. -/
def leaves : Shape → List Shape
  | option s => s.leaves
  | wrapper _ s => s.leaves
  | tuple items => leavesOfAll items
  | tupleStruct _ items => leavesOfAll items
  | record _ fields => leavesOfFields fields
  | s => [s]

/-- The leaves of shapes from left to right. -/
def leavesOfAll : List Shape → List Shape
  | [] => []
  | s :: shapes => s.leaves ++ leavesOfAll shapes

/-- The leaves of named shapes from left to right. -/
def leavesOfFields : List (String × Shape) → List Shape
  | [] => []
  | (_, s) :: fields => s.leaves ++ leavesOfFields fields

end

mutual

/-- Puts data for the leaves of a shape together.  Each part takes as many as it has leaves, and what
is left is ignored. -/
def group : Shape → List Datum → Datum
  | option s, data => .present (s.group (data.take s.leaves.length))
  | wrapper name s, data => .wrapper name (s.group (data.take s.leaves.length))
  | tuple items, data => .tuple (deal items data)
  | tupleStruct name items, data => .tupleStruct name (deal items data)
  | record name fields, data => .record name ((fields.map Prod.fst).zip (dealFields fields data))
  | _, data => data.headD .absent

/-- Deals data for the leaves of shapes out to them. -/
def deal : List Shape → List Datum → List Datum
  | [], _ => []
  | s :: shapes, data =>
    s.group (data.take s.leaves.length) :: deal shapes (data.drop s.leaves.length)

/-- Deals data for the leaves of named shapes out to them. -/
def dealFields : List (String × Shape) → List Datum → List Datum
  | [], _ => []
  | (_, s) :: fields, data =>
    s.group (data.take s.leaves.length) :: dealFields fields (data.drop s.leaves.length)

end

lemma leavesOfAll_eq (shapes : List Shape) : leavesOfAll shapes = shapes.flatMap leaves := by
  induction shapes with
  | nil => rfl
  | cons s shapes ih => rw [leavesOfAll, ih, List.flatMap_cons]

lemma leavesOfFields_eq (fields : List (String × Shape)) :
    leavesOfFields fields = (fields.map Prod.snd).flatMap leaves := by
  induction fields with
  | nil => rfl
  | cons field fields ih => rw [leavesOfFields, ih, List.map_cons, List.flatMap_cons]

lemma dealFields_eq (fields : List (String × Shape)) (data : List Datum) :
    dealFields fields data = deal (fields.map Prod.snd) data := by
  induction fields generalizing data with
  | nil => rfl
  | cons field fields ih => rw [dealFields, ih, List.map_cons, deal]

variable {s : Shape} {parts : List Shape}

lemma leaves_of_leaf (h : s.parts? = none) : s.leaves = [s] := by
  cases s <;> first | rfl | cases h

lemma leaves_of_group (h : s.parts? = some parts) : s.leaves = parts.flatMap leaves := by
  cases s <;> cases h
  case option | wrapper => simp [leaves]
  case record => rw [leaves, leavesOfFields_eq]
  all_goals rw [leaves, leavesOfAll_eq]

lemma group_of_leaf (h : s.parts? = none) (data : List Datum) :
    s.group data = data.headD .absent := by
  cases s <;> first | rfl | cases h

lemma group_of_group (h : s.parts? = some parts) (data : List Datum) :
    s.group data = s.assemble (deal parts data) := by
  cases s <;> cases h
  case record => rw [group, dealFields_eq, assemble]
  all_goals rfl

lemma sizeOf_lt_of_mem_parts {part : Shape} (h : s.parts? = some parts) (hpart : part ∈ parts) :
    sizeOf part < sizeOf s := by
  cases s <;> cases h
  case option | wrapper =>
    obtain rfl := List.mem_singleton.mp hpart
    decreasing_tactic
  case record name fields =>
    obtain ⟨field, hfield, rfl⟩ := List.mem_map.mp hpart
    have hlt := List.sizeOf_lt_of_mem hfield
    rcases field with ⟨label, part⟩
    simp only [Prod.mk.sizeOf_spec, record.sizeOf_spec] at hlt ⊢
    omega
  all_goals
    have hlt := List.sizeOf_lt_of_mem hpart
    simp only [tuple.sizeOf_spec, tupleStruct.sizeOf_spec]
    omega

/-- Induction over a shape as leaves and groups. -/
@[elab_as_elim]
theorem induction {P : Shape → Prop} (leaf : ∀ s, s.parts? = none → P s)
    (group : ∀ s parts, s.parts? = some parts → (∀ part ∈ parts, P part) → P s) (s : Shape) :
    P s := by
  cases hparts : s.parts? with
  | none => exact leaf s hparts
  | some parts => exact group s parts hparts fun part hpart => induction leaf group part
termination_by sizeOf s
decreasing_by exact sizeOf_lt_of_mem_parts hparts hpart

/-- The leaves of a shape have no parts. -/
lemma parts?_of_mem_leaves {leaf : Shape} (h : leaf ∈ s.leaves) : leaf.parts? = none := by
  induction s using Shape.induction with
  | leaf s hs =>
    rw [leaves_of_leaf hs] at h
    rwa [List.mem_singleton.mp h]
  | group s parts hs ih =>
    rw [leaves_of_group hs] at h
    obtain ⟨part, hpart, hleaf⟩ := List.mem_flatMap.mp h
    exact ih part hpart hleaf

end Shape

/-! ## Rebuilding, leaf by leaf -/

lemma Rebuilt.map_map {α β γ : Type} (f : α → β) (g : β → γ) (r : Rebuilt α) :
    Rebuilt.map g (Rebuilt.map f r) = Rebuilt.map (g ∘ f) r := by
  rcases r with ⟨fault | a, rest⟩ <;> rfl

lemma Rebuilt.exists_of_map {α β : Type} {f : α → β} {r : Rebuilt α} {b : β} {rest : List Value}
    (h : Rebuilt.map f r = (.ok b, rest)) : ∃ a, r = (.ok a, rest) ∧ f a = b := by
  rcases r with ⟨fault | a, left⟩ <;> cases h
  exact ⟨a, rfl, rfl⟩

lemma rebuildAll_singleton (s : Shape) (values : List Value) :
    rebuildAll [s] values = Rebuilt.map (fun d => [d]) (s.rebuild values) := by
  rw [rebuildAll]
  rcases s.rebuild values with ⟨fault | d, rest⟩ <;> rfl

lemma rebuildFields_eq (fields : List (String × Shape)) (values : List Value) :
    rebuildFields fields values =
      Rebuilt.map ((fields.map Prod.fst).zip ·) (rebuildAll (fields.map Prod.snd) values) := by
  induction fields generalizing values with
  | nil => rfl
  | cons field fields ih =>
    rw [rebuildFields, List.map_cons, List.map_cons, rebuildAll]
    rcases field.2.rebuild values with ⟨fault | d, rest⟩
    · rfl
    · simp only [ih, Rebuilt.map_map]
      rfl

lemma rebuildAll_append (shapes shapes' : List Shape) (values : List Value) :
    rebuildAll (shapes ++ shapes') values =
      match rebuildAll shapes values with
      | (.error fault, rest) => (.error fault, rest)
      | (.ok data, rest) => Rebuilt.map (data ++ ·) (rebuildAll shapes' rest) := by
  induction shapes generalizing values with
  | nil =>
    change rebuildAll shapes' values = Rebuilt.map ([] ++ ·) (rebuildAll shapes' values)
    rcases rebuildAll shapes' values with ⟨fault | data, rest⟩ <;> rfl
  | cons s shapes ih =>
    rw [List.cons_append, rebuildAll, rebuildAll]
    rcases s.rebuild values with ⟨fault | d, rest⟩
    · rfl
    · simp only [ih]
      rcases rebuildAll shapes rest with ⟨fault | data, rest⟩
      · rfl
      · simp only [Rebuilt.map_map]
        rfl

/-- The first of several shapes is rebuilt, and then the others from what it leaves. -/
lemma exists_of_rebuildAll {s : Shape} {shapes : List Shape} {values rest : List Value}
    {data : List Datum} (h : rebuildAll (s :: shapes) values = (.ok data, rest)) :
    ∃ d after tail, s.rebuild values = (.ok d, after) ∧
      rebuildAll shapes after = (.ok tail, rest) ∧ d :: tail = data := by
  rw [rebuildAll] at h
  split at h
  · cases h
  · next d after hs =>
    obtain ⟨tail, hshapes, htail⟩ := Rebuilt.exists_of_map h
    exact ⟨d, after, tail, hs, hshapes, htail⟩

/-- Every shape is rebuilt to one datum. -/
lemma length_of_rebuildAll {shapes : List Shape} {values rest : List Value} {data : List Datum}
    (h : rebuildAll shapes values = (.ok data, rest)) : data.length = shapes.length := by
  induction shapes generalizing values data with
  | nil =>
    cases h
    rfl
  | cons s shapes ih =>
    obtain ⟨d, after, tail, -, hshapes, rfl⟩ := exists_of_rebuildAll h
    rw [List.length_cons, ih hshapes, List.length_cons]

namespace Shape

/-- A group is rebuilt as its parts are, one after the other. -/
lemma rebuild_of_group {s : Shape} {parts : List Shape} (h : s.parts? = some parts)
    (values : List Value) : s.rebuild values = Rebuilt.map s.assemble (rebuildAll parts values) := by
  cases s <;> cases h
  case option | wrapper =>
    rw [rebuild, rebuildAll_singleton, Rebuilt.map_map]
    rfl
  case record =>
    rw [rebuild, rebuildFields_eq, Rebuilt.map_map]
    rfl
  all_goals
    rw [rebuild]
    rfl

/-- Shapes are rebuilt from their leaves, one after the other, if each of them is.  The data of the
first shape come first, one for each of its leaves. -/
lemma rebuildAll_eq_leaves {shapes : List Shape}
    (hshapes : ∀ s ∈ shapes, ∀ values,
      s.rebuild values = Rebuilt.map s.group (rebuildAll s.leaves values)) (values : List Value) :
    rebuildAll shapes values =
      Rebuilt.map (deal shapes) (rebuildAll (shapes.flatMap leaves) values) := by
  induction shapes generalizing values with
  | nil => rfl
  | cons s shapes ih =>
    obtain ⟨hs, hshapes⟩ := List.forall_mem_cons.mp hshapes
    rw [rebuildAll, List.flatMap_cons, rebuildAll_append, hs]
    cases hleaves : rebuildAll s.leaves values with
    | mk result rest =>
      rcases result with fault | data
      · rfl
      · have hlength := length_of_rebuildAll hleaves
        simp only [Rebuilt.map, Except.map, ih hshapes rest]
        rcases rebuildAll (shapes.flatMap leaves) rest with ⟨fault | tail, left⟩
        · rfl
        · simp [deal, ← hlength]

/-- **Rebuilding a shape is rebuilding its leaves** and putting them together. -/
theorem rebuild_eq_leaves (s : Shape) (values : List Value) :
    s.rebuild values = Rebuilt.map s.group (rebuildAll s.leaves values) := by
  induction s using Shape.induction generalizing values with
  | leaf s hs =>
    rw [leaves_of_leaf hs, rebuildAll_singleton, Rebuilt.map_map]
    rcases s.rebuild values with ⟨fault | d, rest⟩
    · rfl
    · simp [Rebuilt.map, Except.map, group_of_leaf hs]
  | group s parts hs ih =>
    have hgroup : s.assemble ∘ deal parts = s.group := by
      funext data
      exact (group_of_group hs data).symm
    rw [rebuild_of_group hs, leaves_of_group hs, rebuildAll_eq_leaves ih, Rebuilt.map_map, hgroup]

end Shape

/-! ## Typing -/

/-- The data of a leaf. -/
inductive Leaf.Holds : Leaf → Datum → Prop
  | bool {b : Bool} : Holds .bool (.scalar (.bool b))
  | int {type : IntType} {x : ℤ} : type.holds x = true → Holds (.int type) (.scalar (.int type x))
  | float32 {x : Binary32} : Holds .float32 (.scalar (.float32 x))
  | float64 {x : Binary64} : Holds .float64 (.scalar (.float64 x))
  | char {c : Char} : Holds .char (.scalar (.char c))
  | text {expectation text : String} : Holds (.text expectation) (.scalar (.text text))
  | bytes {expectation : String} {bs : List UInt8} : Holds (.bytes expectation) (.scalar (.bytes bs))
  | value {v : Value} : Holds .value (.value v)
  | ignored : Holds .ignored .unit

/-- The data of a shape.  An option may be absent, and a sequence may have any length. -/
inductive Shape.Holds : Shape → Datum → Prop
  | leaf {l : Leaf} {d : Datum} : l.Holds d → Holds (.leaf l) d
  | absent {s : Shape} : Holds (.option s) .absent
  | present {s : Shape} {d : Datum} : Holds s d → Holds (.option s) (.present d)
  | unit : Holds .unit .unit
  | unitStruct {name : String} : Holds (.unitStruct name) (.unitStruct name)
  | wrapper {name : String} {s : Shape} {d : Datum} :
    Holds s d → Holds (.wrapper name s) (.wrapper name d)
  | sequence {s : Shape} {items : List Datum} :
    (∀ d ∈ items, Holds s d) → Holds (.sequence s) (.sequence items)
  | tuple {shapes : List Shape} {items : List Datum} :
    List.Forall₂ Holds shapes items → Holds (.tuple shapes) (.tuple items)
  | tupleStruct {name : String} {shapes : List Shape} {items : List Datum} :
    List.Forall₂ Holds shapes items → Holds (.tupleStruct name shapes) (.tupleStruct name items)
  | record {name : String} {fields : List (String × Shape)} {data : List (String × Datum)} :
    fields.map Prod.fst = data.map Prod.fst →
      List.Forall₂ Holds (fields.map Prod.snd) (data.map Prod.snd) →
        Holds (.record name fields) (.record name data)
  | enumeration {name case : String} {content : Datum} :
    Holds (.enumeration name) (.variant name case content)
  | map {entries : List (Datum × Datum)} : Holds .map (.map entries)

namespace Shape

/-- A datum of a group is a group of data of its parts, unless it is absent. -/
lemma Holds.parts {s : Shape} {parts : List Shape} {x : Datum} (hx : s.Holds x)
    (h : s.parts? = some parts) (hpresent : x ≠ .absent) :
    ∃ items, x.parts? = some items ∧ List.Forall₂ Holds parts items ∧ s.assemble items = x := by
  cases hx <;> cases h
  case absent => exact absurd rfl hpresent
  case present d hd => exact ⟨[d], rfl, .cons hd .nil, rfl⟩
  case wrapper d hd => exact ⟨[d], rfl, .cons hd .nil, rfl⟩
  case tuple items hitems => exact ⟨items, rfl, hitems, rfl⟩
  case tupleStruct items hitems => exact ⟨items, rfl, hitems, rfl⟩
  case record name fields data hnames hdata =>
    refine ⟨data.map Prod.snd, rfl, hdata, ?_⟩
    rw [assemble, hnames, ← List.unzip_fst, ← List.unzip_snd, List.zip_unzip]

/-- Data consist of data for the leaves of their shapes, if each of them does. -/
lemma exists_leaves_of_forall {shapes : List Shape} {items : List Datum}
    (hitems : List.Forall₂ Holds shapes items)
    (hshapes : ∀ s ∈ shapes, ∀ x, s.Holds x → .absent ∉ x.leaves →
      ∃ data, List.Forall₂ Holds s.leaves data ∧ x.leaves = data.flatMap Datum.leaves ∧
        s.group data = x)
    (hpresent : .absent ∉ items.flatMap Datum.leaves) :
    ∃ data, List.Forall₂ Holds (shapes.flatMap leaves) data ∧
      items.flatMap Datum.leaves = data.flatMap Datum.leaves ∧ deal shapes data = items := by
  induction hitems with
  | nil => exact ⟨[], .nil, rfl, rfl⟩
  | @cons s x shapes items hx _ ih =>
    obtain ⟨hs, hshapes⟩ := List.forall_mem_cons.mp hshapes
    obtain ⟨hfirst, hrest⟩ := not_or.mp (List.mem_append.not.mp hpresent)
    obtain ⟨first, hholds, hleaves, hgroup⟩ := hs x hx hfirst
    obtain ⟨rest, hholds', hleaves', hdeal⟩ := ih hshapes hrest
    refine ⟨first ++ rest, List.rel_append hholds hholds', ?_, ?_⟩
    · rw [List.flatMap_cons, hleaves, hleaves', List.flatMap_append]
    · rw [deal, hholds.length_eq, List.take_left, List.drop_left, hgroup, hdeal]

/-- **A datum consists of data for the leaves of its shape**, unless an option in it is absent. -/
theorem Holds.exists_leaves {s : Shape} {x : Datum} (hx : s.Holds x)
    (hpresent : .absent ∉ x.leaves) :
    ∃ data, List.Forall₂ Holds s.leaves data ∧ x.leaves = data.flatMap Datum.leaves ∧
      s.group data = x := by
  induction s using Shape.induction generalizing x with
  | leaf s hs =>
    rw [leaves_of_leaf hs]
    exact ⟨[x], .cons hx .nil, by simp, by rw [group_of_leaf hs]; rfl⟩
  | group s parts hs ih =>
    have hne : x ≠ .absent := by
      rintro rfl
      exact hpresent List.mem_cons_self
    obtain ⟨items, hitems, hholds, rfl⟩ := hx.parts hs hne
    rw [Datum.leaves_of_group hitems] at hpresent ⊢
    obtain ⟨data, hdata, hleaves, hdeal⟩ :=
      exists_leaves_of_forall hholds (fun part hpart _ => ih part hpart) hpresent
    exact ⟨data, leaves_of_group hs ▸ hdata, hleaves, by rw [group_of_group hs, hdeal]⟩

end Shape

end PackedRecord
