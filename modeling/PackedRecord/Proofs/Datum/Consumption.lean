import Mathlib
import PackedRecord.Proofs.Datum.Leaves

/-!
# One value for each leaf

A shape without sequences has a fixed number of leaves, and rebuilding hands them the values from the
front, one each and in order.  Nothing else in the shape takes a value, so that after any outcome
the values left are known from the number of leaves that were reached.

`Consumes` lists the outcomes for a list of leaves.  All leaves take their values; or one refuses
its own; or the values run out; or there is a leaf for data that no value stands for, which takes
none.  One outcome is always met (`exists_consumes`), by induction on the leaves, and it is what
rebuilding answers (`rebuildAll_of_consumes`), because the leaves that take their values leave the
others to the values behind these (`rebuildAll_of_takesFirst`).  Shapes are taken to their leaves by
`Shape.rebuild_eq_leaves`.
-/

namespace PackedRecord

/-! ## Outcomes -/

/-- A leaf stands for data of which no value is part, and this is what the data are called. -/
inductive Shape.Unsupported : Shape → String → Prop
  | unit : Unsupported .unit "unit"
  | unitStruct {name : String} : Unsupported (.unitStruct name) name
  | enumeration {name : String} : Unsupported (.enumeration name) ("enum " ++ name)
  | map : Unsupported .map "map"

/-- The leaves in front, one for each of the data, take the values in front, each its own. -/
def TakesFirst (leaves : List Shape) (values : List Value) (data : List Datum) : Prop :=
  ∀ (k : ℕ) d, data[k]? = some d →
    ∃ l v, leaves[k]? = some (.leaf l) ∧ values[k]? = some v ∧ l.take v = .ok d

/-- What comes of leaves that are handed values, and the values left.  All take theirs; or the first
that does not take its own refuses it; or there is no value for it; or it takes none, whatever
values there are. -/
inductive Consumes (leaves : List Shape) (values : List Value) : Rebuilt (List Datum) → Prop
  | done {data : List Datum} (htakes : TakesFirst leaves values data)
    (hlength : data.length = leaves.length) :
    Consumes leaves values (.ok data, values.drop data.length)
  | refused {data : List Datum} {l : Leaf} {v : Value} {fault : Fault}
    (htakes : TakesFirst leaves values data) (hleaf : leaves[data.length]? = some (.leaf l))
    (hvalue : values[data.length]? = some v) (hrefused : l.take v = .error fault) :
    Consumes leaves values (.error fault, values.drop (data.length + 1))
  | short {data : List Datum} {l : Leaf} (htakes : TakesFirst leaves values data)
    (hleaf : leaves[data.length]? = some (.leaf l)) (hlength : data.length = values.length) :
    Consumes leaves values (.error .outOfValues, [])
  | unsupported {data : List Datum} {s : Shape} {what : String}
    (htakes : TakesFirst leaves values data) (hleaf : leaves[data.length]? = some s)
    (hs : s.Unsupported what) :
    Consumes leaves values (.error (.unsupportedType what), values.drop data.length)

/-! ## Leaves in front -/

namespace TakesFirst

variable {leaves : List Shape} {values : List Value} {data : List Datum} {l : Leaf} {v : Value}
  {d : Datum}

lemma nil : TakesFirst leaves values [] := by
  intro k d hd
  simp at hd

lemma cons (hd : l.take v = .ok d) (h : TakesFirst leaves values data) :
    TakesFirst (.leaf l :: leaves) (v :: values) (d :: data) := by
  intro k e he
  cases k with
  | zero =>
    obtain rfl := Option.some.inj he
    exact ⟨l, v, rfl, rfl, hd⟩
  | succ k => exact h k e he

lemma exists_cons (h : TakesFirst leaves values (d :: data)) :
    ∃ l v leaves' values', leaves = .leaf l :: leaves' ∧ values = v :: values' ∧
      l.take v = .ok d ∧ TakesFirst leaves' values' data := by
  obtain ⟨l, v, hleaf, hvalue, hd⟩ := h 0 d rfl
  cases leaves with
  | nil => cases hleaf
  | cons s leaves =>
    cases values with
    | nil => cases hvalue
    | cons w values =>
      obtain rfl := Option.some.inj hleaf
      obtain rfl := Option.some.inj hvalue
      exact ⟨l, w, leaves, values, rfl, rfl, hd, fun k e he => h (k + 1) e he⟩

/-- There are no fewer values than data. -/
lemma length_le (h : TakesFirst leaves values data) : data.length ≤ values.length := by
  by_contra hlt
  obtain ⟨_, _, -, hvalue, -⟩ := h values.length _ (List.getElem?_eq_getElem (not_le.mp hlt))
  simp at hvalue

end TakesFirst

variable {leaves : List Shape} {values : List Value}

/-- Leaves in front that take their values leave the other leaves to the other values. -/
lemma rebuildAll_of_takesFirst {data : List Datum} (h : TakesFirst leaves values data) :
    rebuildAll leaves values =
      Rebuilt.map (data ++ ·)
        (rebuildAll (leaves.drop data.length) (values.drop data.length)) := by
  induction data generalizing leaves values with
  | nil =>
    change rebuildAll leaves values = Rebuilt.map ([] ++ ·) (rebuildAll leaves values)
    rcases rebuildAll leaves values with ⟨fault | data, rest⟩ <;> rfl
  | cons d data ih =>
    obtain ⟨l, v, leaves, values, rfl, rfl, hd, hrest⟩ := h.exists_cons
    rw [rebuildAll, Shape.rebuild, Leaf.rebuild, hd]
    simp only [ih hrest, Rebuilt.map_map, List.length_cons, List.drop_succ_cons]
    rfl

lemma Shape.Unsupported.rebuild_eq {s : Shape} {what : String} (h : s.Unsupported what)
    (values : List Value) : s.rebuild values = (.error (.unsupportedType what), values) := by
  cases h <;> rw [rebuild]

/-! ## The outcome that is met -/

/-- Rebuilding answers the outcome that is met. -/
lemma rebuildAll_of_consumes {r : Rebuilt (List Datum)} (h : Consumes leaves values r) :
    rebuildAll leaves values = r := by
  cases h with
  | done htakes hlength =>
    rw [rebuildAll_of_takesFirst htakes, List.drop_of_length_le hlength.ge, rebuildAll]
    simp [Rebuilt.map, Except.map]
  | refused htakes hleaf hvalue hrefused =>
    obtain ⟨hk, hleaf⟩ := List.getElem?_eq_some_iff.mp hleaf
    obtain ⟨hj, hvalue⟩ := List.getElem?_eq_some_iff.mp hvalue
    rw [rebuildAll_of_takesFirst htakes, List.drop_eq_getElem_cons hk, hleaf,
      List.drop_eq_getElem_cons hj, hvalue, rebuildAll, Shape.rebuild, Leaf.rebuild, hrefused]
    rfl
  | short htakes hleaf hlength =>
    obtain ⟨hk, hleaf⟩ := List.getElem?_eq_some_iff.mp hleaf
    rw [rebuildAll_of_takesFirst htakes, List.drop_eq_getElem_cons hk, hleaf,
      List.drop_of_length_le hlength.ge, rebuildAll, Shape.rebuild, Leaf.rebuild]
    rfl
  | unsupported htakes hleaf hs =>
    obtain ⟨hk, hleaf⟩ := List.getElem?_eq_some_iff.mp hleaf
    rw [rebuildAll_of_takesFirst htakes, List.drop_eq_getElem_cons hk, hleaf, rebuildAll,
      hs.rebuild_eq]
    rfl

/-- What comes of the other leaves, if the first one takes its value. -/
lemma Consumes.cons {l : Leaf} {v : Value} {d : Datum} (hd : l.take v = .ok d)
    {r : Rebuilt (List Datum)} (h : Consumes leaves values r) :
    Consumes (.leaf l :: leaves) (v :: values) (r.map (d :: ·)) := by
  cases h with
  | done htakes hlength => exact .done (htakes.cons hd) (congrArg Nat.succ hlength)
  | refused htakes hleaf hvalue hrefused => exact .refused (htakes.cons hd) hleaf hvalue hrefused
  | short htakes hleaf hlength => exact .short (htakes.cons hd) hleaf (congrArg Nat.succ hlength)
  | unsupported htakes hleaf hs => exact .unsupported (htakes.cons hd) hleaf hs

/-- Some outcome is met, where none of the leaves is a sequence. -/
lemma exists_consumes (hleaves : ∀ s ∈ leaves, s.parts? = none ∧ ∀ e, s ≠ .sequence e)
    (values : List Value) : ∃ r, Consumes leaves values r := by
  induction leaves generalizing values with
  | nil => exact ⟨_, .done .nil rfl⟩
  | cons s leaves ih =>
    obtain ⟨⟨hparts, hsequence⟩, hothers⟩ := List.forall_mem_cons.mp hleaves
    cases s with
    | leaf l =>
      cases values with
      | nil => exact ⟨_, .short .nil rfl rfl⟩
      | cons v values =>
        cases htake : l.take v with
        | error fault => exact ⟨_, .refused .nil rfl rfl htake⟩
        | ok d =>
          obtain ⟨r, hr⟩ := ih hothers values
          exact ⟨_, hr.cons htake⟩
    | unit => exact ⟨_, .unsupported .nil rfl .unit⟩
    | unitStruct => exact ⟨_, .unsupported .nil rfl .unitStruct⟩
    | enumeration => exact ⟨_, .unsupported .nil rfl .enumeration⟩
    | map => exact ⟨_, .unsupported .nil rfl .map⟩
    | sequence e => exact absurd rfl (hsequence e)
    | option | wrapper | tuple | tupleStruct | record => cases hparts

namespace Shape

variable {s : Shape}

/-- A shape without sequences is rebuilt to what comes of its leaves, put together. -/
lemma rebuild_eq_iff_consumes (hs : ∀ e, .sequence e ∉ s.leaves) {r : Rebuilt Datum} :
    s.rebuild values = r ↔ ∃ q, Consumes s.leaves values q ∧ r = q.map s.group := by
  constructor
  · rintro rfl
    obtain ⟨q, hq⟩ : ∃ q, Consumes s.leaves values q := by
      refine exists_consumes (fun leaf hleaf => ⟨parts?_of_mem_leaves hleaf, ?_⟩) values
      rintro e rfl
      exact hs e hleaf
    exact ⟨q, hq, by rw [rebuild_eq_leaves, rebuildAll_of_consumes hq]⟩
  · rintro ⟨q, hq, rfl⟩
    rw [rebuild_eq_leaves, rebuildAll_of_consumes hq]

/-- What has been rebuilt was made of one value for each leaf, and the other values are left. -/
lemma exists_takesFirst_of_rebuild (hs : ∀ e, .sequence e ∉ s.leaves) {d : Datum}
    {rest : List Value} (h : s.rebuild values = (.ok d, rest)) :
    ∃ data, TakesFirst s.leaves values data ∧ data.length = s.leaves.length ∧
      rest = values.drop s.leaves.length := by
  obtain ⟨q, hq, hr⟩ := (rebuild_eq_iff_consumes hs).mp h
  cases hq with
  | done htakes hlength =>
    obtain ⟨-, rfl⟩ := Prod.mk.inj hr
    exact ⟨_, htakes, hlength, by rw [hlength]⟩
  | refused | short | unsupported => cases hr

/-- A shape is rebuilt if there is a value for each leaf and the leaf takes it. -/
lemma exists_rebuild_iff (hs : ∀ e, .sequence e ∉ s.leaves) :
    (∃ d rest, s.rebuild values = (.ok d, rest)) ↔
      s.leaves.length ≤ values.length ∧ ∀ (k : ℕ) leaf v, s.leaves[k]? = some leaf →
        values[k]? = some v → ∃ l d, leaf = .leaf l ∧ l.take v = .ok d := by
  constructor
  · rintro ⟨d, rest, h⟩
    obtain ⟨data, htakes, hlength, -⟩ := exists_takesFirst_of_rebuild hs h
    refine ⟨hlength ▸ htakes.length_le, ?_⟩
    intro k leaf v hleaf hv
    obtain ⟨hk, -⟩ := List.getElem?_eq_some_iff.mp hleaf
    obtain ⟨l, w, hl, hw, htake⟩ := htakes k _ (List.getElem?_eq_getElem (hlength ▸ hk))
    obtain rfl := Option.some.inj (hleaf.symm.trans hl)
    obtain rfl := Option.some.inj (hv.symm.trans hw)
    exact ⟨l, _, rfl, htake⟩
  · rintro ⟨hle, haccept⟩
    obtain ⟨q, hq, hr⟩ := (rebuild_eq_iff_consumes hs).mp (Eq.refl (s.rebuild values))
    rw [hr]
    cases hq with
    | done => exact ⟨_, _, rfl⟩
    | refused htakes hleaf hvalue hrefused =>
      obtain ⟨l, d, hl, htake⟩ := haccept _ _ _ hleaf hvalue
      obtain rfl := Shape.leaf.inj hl
      rw [hrefused] at htake
      cases htake
    | short htakes hleaf hlength =>
      obtain ⟨hk, -⟩ := List.getElem?_eq_some_iff.mp hleaf
      omega
    | unsupported htakes hleaf hnode =>
      obtain ⟨hk, -⟩ := List.getElem?_eq_some_iff.mp hleaf
      obtain ⟨l, d, rfl, -⟩ :=
        haccept _ _ _ hleaf (List.getElem?_eq_getElem (hk.trans_le hle))
      cases hnode

/-- Of values from which a shape is rebuilt there must be none left. -/
lemma ofValues_of_rebuild_eq_ok {d : Datum} {rest : List Value}
    (h : s.rebuild values = (.ok d, rest)) :
    s.ofValues values = if 0 < rest.length then .error (.trailingValues rest.length) else .ok d := by
  rw [ofValues, h]
  cases rest with
  | nil => rfl
  | cons v rest => simp [requireEnd]

/-- **Rebuilding goes leaf by leaf**, where no leaf is a sequence.  What comes of the leaves and the
values is what rebuilding answers.  It succeeds if there are at least as many values as leaves and
each leaf takes its own, and then one value has been taken for each leaf.  Of exactly these values
the datum is rebuilt, and if there are more the answer is how many. -/
theorem rebuild_leaf_by_leaf {s : Shape} (hs : ∀ e, .sequence e ∉ s.leaves)
    (values : List Value) :
    (∀ r, s.rebuild values = r ↔ ∃ q, Consumes s.leaves values q ∧ r = q.map s.group) ∧
      ((∃ d rest, s.rebuild values = (.ok d, rest)) ↔
        s.leaves.length ≤ values.length ∧ ∀ (k : ℕ) leaf v, s.leaves[k]? = some leaf →
          values[k]? = some v → ∃ l d, leaf = .leaf l ∧ l.take v = .ok d) ∧
      (∀ d rest, s.rebuild values = (.ok d, rest) →
        rest.length + s.leaves.length = values.length ∧
          s.ofValues values =
            if s.leaves.length < values.length then
              .error (.trailingValues (values.length - s.leaves.length))
            else .ok d) ∧
      Fault.outOfValues.message = "ran out of values" := by
  refine ⟨fun r => rebuild_eq_iff_consumes hs, exists_rebuild_iff hs, ?_, rfl⟩
  intro d rest h
  obtain ⟨data, htakes, hlength, rfl⟩ := exists_takesFirst_of_rebuild hs h
  have hle := hlength ▸ htakes.length_le
  rw [ofValues_of_rebuild_eq_ok h, List.length_drop]
  refine ⟨Nat.sub_add_cancel hle, ?_⟩
  simp only [Nat.sub_pos_iff_lt]

/-- A record of a number and an option of a pair takes three values of four.  Where the flag in the
pair is given bytes, it refuses them, and the values behind are left. -/
theorem rebuild_leaf_by_leaf_nested :
    (Shape.record "Sample" [("id", .leaf (.int .byte)),
        ("mark", .option (.tuple [.leaf .bool, .leaf .value]))]).ofValues
          [.int 7, .uint 1, .bytes [0x61], .bool true] = .error (.trailingValues 1) ∧
      (Shape.record "Sample" [("id", .leaf (.int .byte)),
        ("mark", .option (.tuple [.leaf .bool, .leaf .value]))]).rebuild
          [.int 7, .bytes [1], .bytes [0x61], .bool true] =
            (.error (.refused (.invalidType .bytes "a boolean")),
              [.bytes [0x61], .bool true]) := by
  have hs : ∀ e, .sequence e ∉ (Shape.record "Sample" [("id", .leaf (.int .byte)),
      ("mark", .option (.tuple [.leaf .bool, .leaf .value]))]).leaves := by
    simp [leaves, leavesOfFields, leavesOfAll]
  obtain ⟨-, -, hend, -⟩ :=
    rebuild_leaf_by_leaf hs [.int 7, .uint 1, .bytes [0x61], .bool true]
  obtain ⟨hconsumes, -⟩ :=
    rebuild_leaf_by_leaf hs [.int 7, .bytes [1], .bytes [0x61], .bool true]
  constructor
  · exact (hend _ _ rfl).2
  · refine (hconsumes _).mpr ⟨(.error _, _), ?_, rfl⟩
    have htakes : TakesFirst [.leaf (.int .byte), .leaf .bool, .leaf .value]
        [.int 7, .bytes [1], .bytes [0x61], .bool true] [.scalar (.int .byte 7)] :=
      .cons rfl .nil
    exact .refused htakes rfl rfl rfl

end Shape

end PackedRecord
