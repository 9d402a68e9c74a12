import Mathlib
import PackedRecord.Proofs.Datum.RoundTrip

/-!
# What flattening leaves behind

A datum is flattened to the values of its leaves, and a leaf that has no value ends the flattening.
`Datum.Refused` lists these leaves, each with the fault that it ends with; every other leaf has one
value.  A fault takes nothing back: the values of the leaves in front of it have been appended, and
whatever is flattened next comes behind them.

`Appends` says this of a list of leaves: which values they append, and how that ends.  Each list of
leaves appends something (`exists_appends`), and flattening does just that, whatever was appended
before (`emitAll_of_appends`).  Data are taken to their leaves by `Datum.emit_eq_leaves`, so that
grouping, nesting and names have no part in it, and data one after the other append what each of
them does by itself (`emitEach_of_appends`), by induction on the data.
-/

namespace PackedRecord

/-! ## Leaves without a value -/

namespace Datum

/-- A leaf has no value, and flattening ends with a fault there.  What a variant or a map holds
plays no role. -/
inductive Refused : Datum → Fault → Prop
  | absent : Refused .absent (.unsupportedType "None")
  | unit : Refused .unit (.unsupportedType "unit")
  | unitStruct {name : String} : Refused (.unitStruct name) (.unsupportedType name)
  | variant {name case : String} {content : Datum} :
    Refused (.variant name case content) (.unsupportedType ("enum " ++ name ++ "::" ++ case))
  | map {entries : List (Datum × Datum)} : Refused (.map entries) (.unsupportedType "map")
  | wide {type : IntType} {x : ℤ} (hbits : 64 < type.bits) :
    Refused (.scalar (.int type x)) (.unsupportedInteger type)
  | failure {text : String} : Refused (.failure text) (.custom text)

/-- A datum of integers with up to 64 bits, of which no part reports a fault of its own. -/
def Plain (d : Datum) : Prop :=
  ∀ leaf ∈ d.leaves, (∀ type x, leaf = .scalar (.int type x) → type.bits ≤ 64) ∧
    ∀ text, leaf ≠ .failure text

variable {d : Datum} {fault : Fault}

lemma value?_wide {type : IntType} {x : ℤ} :
    (Datum.scalar (.int type x)).value? = none ↔ 64 < type.bits := by
  rw [value?_int, IntType.value?]
  split
  · next hbits => simp [hbits]
  · next hbits => split <;> simp [hbits]

/-- A leaf has a value or is refused. -/
lemma exists_value?_or_refused (hd : d.parts? = none) :
    (∃ v, d.value? = some v) ∨ ∃ fault, d.Refused fault := by
  cases d with
  | scalar s =>
    cases s with
    | int type x =>
      cases hvalue : (Datum.scalar (.int type x)).value? with
      | some v => exact Or.inl ⟨v, rfl⟩
      | none => exact Or.inr ⟨_, .wide (value?_wide.mp hvalue)⟩
    | bool | float32 | float64 | char | text | bytes => exact Or.inl ⟨_, rfl⟩
  | value v => exact Or.inl ⟨v, rfl⟩
  | absent => exact Or.inr ⟨_, .absent⟩
  | unit => exact Or.inr ⟨_, .unit⟩
  | unitStruct => exact Or.inr ⟨_, .unitStruct⟩
  | variant => exact Or.inr ⟨_, .variant⟩
  | map => exact Or.inr ⟨_, .map⟩
  | failure => exact Or.inr ⟨_, .failure⟩
  | present | wrapper | sequence | tuple | tupleStruct | record => cases hd

lemma Refused.value?_eq_none (h : d.Refused fault) : d.value? = none := by
  cases h with
  | wide hbits => exact value?_wide.mpr hbits
  | absent | unit | unitStruct | variant | map | failure => rfl

/-- A refused leaf appends nothing. -/
lemma Refused.emit_eq (h : d.Refused fault) (out : Array Value) :
    d.emit out = (out, .error fault) := by
  cases h with
  | wide hbits => simp only [emit, emitScalar, Scalar.toValue, IntType.value?, if_pos hbits]
  | absent | unit | unitStruct | variant | map | failure => rw [emit]

/-- Plain data are refused for their type alone. -/
lemma Refused.unsupported {leaf : Datum} (h : leaf.Refused fault) (hd : d.Plain)
    (hleaf : leaf ∈ d.leaves) : ∃ what, fault = .unsupportedType what := by
  obtain ⟨hbits, htext⟩ := hd leaf hleaf
  cases h with
  | wide hwide => exact absurd (hbits _ _ rfl) (not_le.mpr hwide)
  | failure => exact absurd rfl (htext _)
  | absent | unit | unitStruct | variant | map => exact ⟨_, rfl⟩

end Datum

/-! ## What leaves append -/

/-- The values that leaves append, and how that ends: each leaf appends its value, or all in front
of a refused one do and the fault is that of the refused one. -/
inductive Appends : List Datum → List Value → Except Fault Unit → Prop
  | all {leaves : List Datum} {values : List Value} (hgives : Gives leaves values) :
    Appends leaves values (.ok ())
  | front {before after : List Datum} {leaf : Datum} {values : List Value} {fault : Fault}
    (hgives : Gives before values) (hleaf : leaf.Refused fault) :
    Appends (before ++ leaf :: after) values (.error fault)

variable {leaves : List Datum} {values : List Value} {ending : Except Fault Unit} {fault : Fault}

lemma Gives.not_refused (h : Gives leaves values) {leaf : Datum} (hleaf : leaf ∈ leaves) :
    ¬ leaf.Refused fault := by
  intro hrefused
  obtain ⟨v, hv⟩ : ∃ v, leaf.value? = some v := by
    obtain ⟨k, hk, rfl⟩ := List.mem_iff_getElem.mp hleaf
    exact ⟨_, h.get hk (h.length_eq ▸ hk)⟩
  rw [hrefused.value?_eq_none] at hv
  cases hv

/-- All leaves append something. -/
lemma exists_appends (hleaves : ∀ leaf ∈ leaves, leaf.parts? = none) :
    ∃ values ending, Appends leaves values ending := by
  induction leaves with
  | nil => exact ⟨[], _, .all .nil⟩
  | cons leaf leaves ih =>
    obtain ⟨hleaf, hleaves⟩ := List.forall_mem_cons.mp hleaves
    rcases Datum.exists_value?_or_refused hleaf with ⟨v, hv⟩ | ⟨fault, hfault⟩
    · obtain ⟨values, ending, hrest⟩ := ih hleaves
      cases hrest with
      | all hgives => exact ⟨v :: values, _, .all (.cons hv hgives)⟩
      | @front before after last _ fault hgives hlast =>
        have hfront : Appends ((leaf :: before) ++ last :: after) (v :: values) (.error fault) :=
          .front (.cons hv hgives) hlast
        exact ⟨v :: values, _, hfront⟩
    · have hfront : Appends ([] ++ leaf :: leaves) [] (.error fault) := .front .nil hfault
      exact ⟨[], _, hfront⟩

/-- Leaves of which none is refused have a value each. -/
lemma exists_gives (hleaves : ∀ leaf ∈ leaves, leaf.parts? = none)
    (h : ∀ leaf ∈ leaves, ∀ fault, ¬ leaf.Refused fault) : ∃ values, Gives leaves values := by
  obtain ⟨values, ending, happends⟩ := exists_appends hleaves
  cases happends with
  | all hgives => exact ⟨values, hgives⟩
  | front hgives hleaf => exact absurd hleaf (h _ (by simp) _)

/-- **Leaves are flattened to what they append**, behind what is there already. -/
theorem emitAll_of_appends (h : Appends leaves values ending) (out : Array Value) :
    emitAll out leaves = (out ++ values.toArray, ending) := by
  cases h with
  | all hgives => exact hgives.emitAll_eq out
  | front hgives hleaf =>
    rw [emitAll_append, hgives.emitAll_eq]
    simp only [emitAll, hleaf.emit_eq]

namespace Datum

variable {d : Datum}

/-- A datum appends what its leaves append. -/
lemma emit_of_appends (h : Appends d.leaves values ending) (out : Array Value) :
    d.emit out = (out ++ values.toArray, ending) := by
  rw [emit_eq_leaves, emitAll_of_appends h]

lemma flatten_of_appends (h : Appends d.leaves values ending) :
    d.flatten = ending.map fun _ => values := by
  rw [flatten, emit_of_appends h]
  cases ending with
  | ok => simp [Except.map]
  | error fault => rfl

lemma exists_appends_leaves (d : Datum) : ∃ values ending, Appends d.leaves values ending :=
  exists_appends fun _ => parts?_of_mem_leaves

/-- A datum is flattened to values if each of its leaves has one of them, in order. -/
theorem flatten_eq_ok_iff : d.flatten = .ok values ↔ Gives d.leaves values := by
  constructor
  · intro h
    obtain ⟨values', ending, happends⟩ := d.exists_appends_leaves
    rw [flatten_of_appends happends] at h
    generalize d.leaves = leaves at happends ⊢
    cases happends with
    | all hgives =>
      obtain rfl := Except.ok.inj h
      exact hgives
    | front => cases h
  · intro hgives
    rw [flatten_of_appends (.all hgives)]
    rfl

/-- The fault of a datum is that of the first leaf that is refused. -/
theorem flatten_eq_error_iff :
    d.flatten = .error fault ↔
      ∃ before leaf after, d.leaves = before ++ leaf :: after ∧
        (∀ x ∈ before, ∀ other, ¬ x.Refused other) ∧ leaf.Refused fault := by
  constructor
  · intro h
    obtain ⟨values, ending, happends⟩ := d.exists_appends_leaves
    rw [flatten_of_appends happends] at h
    generalize d.leaves = leaves at happends ⊢
    cases happends with
    | all => cases h
    | @front before after leaf _ first hgives hleaf =>
      obtain rfl := Except.error.inj h
      exact ⟨before, leaf, after, rfl, fun x hx other => hgives.not_refused hx, hleaf⟩
  · rintro ⟨before, leaf, after, hsplit, hbefore, hleaf⟩
    obtain ⟨values, hgives⟩ : ∃ values, Gives before values := by
      refine exists_gives (fun x hx => ?_) hbefore
      exact parts?_of_mem_leaves (hsplit ▸ List.mem_append_left _ hx)
    have happends : Appends d.leaves values (.error fault) := hsplit ▸ .front hgives hleaf
    rw [flatten_of_appends happends]
    rfl

/-- A datum can be flattened if none of its leaves is refused. -/
lemma exists_flatten_iff :
    (∃ values, d.flatten = .ok values) ↔ ∀ leaf ∈ d.leaves, ∀ fault, ¬ leaf.Refused fault := by
  simp only [flatten_eq_ok_iff]
  constructor
  · rintro ⟨values, hgives⟩ leaf hleaf fault
    exact hgives.not_refused hleaf
  · exact exists_gives fun _ => parts?_of_mem_leaves

end Datum

/-! ## One datum after the other -/

/-- **Data append what each of them does by itself**, in order, whether or not the ones before have
ended with a fault. -/
theorem emitEach_of_appends {items : List Datum} {runs : List (List Value × Except Fault Unit)}
    (h : List.Forall₂ (fun d run => Appends d.leaves run.1 run.2) items runs) (out : Array Value) :
    emitEach out items = (out ++ (runs.flatMap Prod.fst).toArray, runs.map Prod.snd) := by
  induction h generalizing out with
  | nil => simp [emitEach]
  | @cons d run items runs hd _ ih =>
    simp only [emitEach, Datum.emit_of_appends hd, ih]
    simp

lemma exists_runs (items : List Datum) :
    ∃ runs : List (List Value × Except Fault Unit),
      List.Forall₂ (fun d run => Appends d.leaves run.1 run.2) items runs := by
  induction items with
  | nil => exact ⟨[], .nil⟩
  | cons d items ih =>
    obtain ⟨values, ending, hd⟩ := d.exists_appends_leaves
    obtain ⟨runs, hruns⟩ := ih
    exact ⟨(values, ending) :: runs, .cons hd hruns⟩

/-- **Flattening goes leaf by leaf.**  A datum can be flattened if none of its leaves is refused, and
then there is one value for each leaf, in order.  Otherwise the fault is that of the first leaf that
is refused; for plain data it names the type of this leaf.  Data with the same leaves are flattened
alike, however they are grouped.  And data that are flattened one after the other append all of
their values if they can be flattened, and those of the leaves before the first refused one if
not. -/
theorem Datum.flatten_leafwise :
    (∀ (d : Datum) values, d.flatten = .ok values ↔ Gives d.leaves values) ∧
      (∀ d : Datum, (∃ values, d.flatten = .ok values) ↔
        ∀ leaf ∈ d.leaves, ∀ fault, ¬ leaf.Refused fault) ∧
      (∀ (d : Datum) fault, d.flatten = .error fault ↔
        ∃ before leaf after, d.leaves = before ++ leaf :: after ∧
          (∀ x ∈ before, ∀ other, ¬ x.Refused other) ∧ leaf.Refused fault) ∧
      (∀ d : Datum, d.Plain → ∀ fault, d.flatten = .error fault →
        ∃ what, fault = .unsupportedType what) ∧
      (∀ d d' : Datum, d.leaves = d'.leaves → d.flatten = d'.flatten) ∧
      ∀ items : List Datum, ∃ runs : List (List Value × Except Fault Unit),
        List.Forall₂ (fun d run => Appends d.leaves run.1 run.2) items runs ∧
          ∀ out, emitEach out items =
            (out ++ (runs.flatMap Prod.fst).toArray, runs.map Prod.snd) := by
  refine ⟨fun d values => flatten_eq_ok_iff, fun d => exists_flatten_iff,
    fun d fault => flatten_eq_error_iff, ?_, ?_, ?_⟩
  · intro d hd fault h
    obtain ⟨before, leaf, after, hsplit, -, hleaf⟩ := flatten_eq_error_iff.mp h
    exact hleaf.unsupported hd (by simp [hsplit])
  · intro d d' hleaves
    rw [flatten, flatten, emit_eq_leaves, emit_eq_leaves, hleaves]
  · intro items
    obtain ⟨runs, hruns⟩ := exists_runs items
    exact ⟨runs, hruns, emitEach_of_appends hruns⟩

/-- A map deep in plain data is what they are refused for, and not the unit in it or behind it. -/
theorem Datum.flatten_leafwise_map :
    (∀ fault, (Datum.tuple [.scalar (.bool true),
        .record "Sample" [("table", .map [(.unit, .unit)]), ("rest", .unit)]]).flatten =
          .error fault → ∃ what, fault = .unsupportedType what) ∧
      (Datum.tuple [.scalar (.bool true),
        .record "Sample" [("table", .map [(.unit, .unit)]), ("rest", .unit)]]).flatten =
          .error (.unsupportedType "map") := by
  obtain ⟨-, -, hfault, hplain, -⟩ := Datum.flatten_leafwise
  have hleaves : (Datum.tuple [.scalar (.bool true),
      .record "Sample" [("table", .map [(.unit, .unit)]), ("rest", .unit)]]).leaves =
        [.scalar (.bool true)] ++ .map [(.unit, .unit)] :: [.unit] := rfl
  constructor
  · apply hplain
    simp [Datum.Plain, hleaves]
  · refine (hfault _ _).mpr ⟨_, _, _, hleaves, ?_, .map⟩
    simp only [List.forall_mem_singleton]
    exact nofun

/-- What follows a datum that is refused comes behind the leaves in front of the refused one. -/
example : emitEach #[] [.tuple [.value (.int 1), .absent, .value (.int 2)],
    .present (.sequence [.value (.int 3), .scalar (.bool true)])] =
      (#[.int 1, .int 3, .bool true], [.error (.unsupportedType "None"), .ok ()]) := rfl

end PackedRecord
