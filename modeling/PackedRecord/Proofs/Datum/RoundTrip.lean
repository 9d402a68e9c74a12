import Mathlib
import PackedRecord.Proofs.Datum.Leaves
import PackedRecord.Proofs.Number.Conversions

/-!
# Flattening and rebuilding again

A shape is *flat* if each of its leaves gives exactly one value.  The values of a datum of a flat
shape are then all that its rebuilding needs: it takes these values, one for each leaf, and leaves
alone whatever follows them.  That the groups come out right has been settled for all shapes
(`Shape.rebuild_eq_leaves` and `Shape.Holds.exists_leaves`); what remains is one leaf at a time
(`Leaf.take_value`), integers crossing by their 64-bit carriers, binary32 numbers by binary64 and
texts by UTF-8.

One sequence may stand behind the flat leaves.  It takes values until there are none, so that it
must be the last leaf and nothing may follow; and since each of its elements takes a value, the
bound that guards against elements that take none is never met (`rebuildRest_of_items`).
-/

namespace PackedRecord

/-! ## Values of leaves -/

/-- The value that a leaf gives. -/
def Datum.value? : Datum → Option Value
  | .scalar s => s.toValue.toOption
  | .value v => some v
  | _ => none

/-- The values that leaves give, one each. -/
abbrev Gives (data : List Datum) (values : List Value) : Prop :=
  List.Forall₂ (fun d v => d.value? = some v) data values

namespace Datum

lemma value?_int (t : IntType) (x : ℤ) : (Datum.scalar (.int t x)).value? = t.value? x := by
  simp only [value?, Scalar.toValue]
  cases t.value? x <;> rfl

lemma emit_of_value? {d : Datum} {v : Value} (h : d.value? = some v) (out : Array Value) :
    d.emit out = (out.push v, .ok ()) := by
  cases d <;> try cases h
  case scalar s =>
    simp only [value?] at h
    rw [emit, emitScalar]
    cases htoValue : s.toValue with
    | error type => simp [htoValue, Except.toOption] at h
    | ok w =>
      obtain rfl : w = v := by simpa [htoValue, Except.toOption] using h
      rfl
  case value => rfl

end Datum

namespace Gives

variable {data : List Datum} {values : List Value}

lemma emitAll_eq (h : Gives data values) (out : Array Value) :
    emitAll out data = (out ++ values.toArray, .ok ()) := by
  induction h generalizing out with
  | nil => simp [emitAll]
  | @cons d v data values hd _ ih =>
    rw [emitAll, Datum.emit_of_value? hd]
    simp only [ih]
    simp

/-- A datum whose leaves give values is flattened to these values. -/
lemma flatten_eq {x : Datum} (h : Gives x.leaves values) : x.flatten = .ok values := by
  rw [Datum.flatten, Datum.emit_eq_leaves, h.emitAll_eq]
  simp

end Gives

/-! ## Integers -/

namespace IntType

variable {t : IntType} {x : ℤ}

lemma bounds_of_signed {n : ℕ} (hx : t.holds x = true) (hsigned : t.signed = true)
    (hbits : t.bits ≤ n) : -2 ^ (n - 1) ≤ x ∧ x < 2 ^ (n - 1) := by
  obtain ⟨hmin, hmax⟩ := of_decide_eq_true hx
  have hle : (2 : ℤ) ^ (t.bits - 1) ≤ 2 ^ (n - 1) := pow_le_pow_right₀ (by norm_num) (by omega)
  simp only [min, max, hsigned, if_true, Nat.pow_eq, Nat.cast_pow, Nat.cast_ofNat] at hmin hmax
  constructor <;> linarith

lemma bounds_of_unsigned {n : ℕ} (hx : t.holds x = true) (hsigned : t.signed = false)
    (hbits : t.bits ≤ n) : 0 ≤ x ∧ x < 2 ^ n := by
  obtain ⟨hmin, hmax⟩ := of_decide_eq_true hx
  have hle : (2 : ℤ) ^ t.bits ≤ 2 ^ n := pow_le_pow_right₀ (by norm_num) hbits
  simp only [min, max, hsigned, Bool.false_eq_true, if_false, Nat.pow_eq, Nat.cast_pow,
    Nat.cast_ofNat] at hmin hmax
  exact ⟨hmin, by linarith⟩

/-- An integer of up to 64 bits is carried by a value of its signedness. -/
lemma exists_value? (hx : t.holds x = true) (hbits : t.bits ≤ 64) :
    ∃ v, t.value? x = some v ∧ v.integer? = some x := by
  unfold value?
  rw [if_neg (not_lt.mpr hbits)]
  cases hsigned : t.signed with
  | true =>
    obtain ⟨hlow, hhigh⟩ := bounds_of_signed hx hsigned hbits
    refine ⟨_, rfl, ?_⟩
    rw [Value.integer?, Int64.toInt_ofInt_of_le hlow hhigh]
  | false =>
    obtain ⟨hlow, hhigh⟩ := bounds_of_unsigned hx hsigned hbits
    refine ⟨_, rfl, ?_⟩
    rw [Value.integer?, UInt64.toNat_ofNat_of_lt' (by change x.toNat < 2 ^ 64; omega),
      Int.toNat_of_nonneg hlow]

end IntType

/-! ## Taking a value -/

namespace Leaf

lemma take_int {type : IntType} {v : Value} {x : ℤ} (hv : v.integer? = some x)
    (hx : type.holds x = true) : (int type).take v = .ok (.scalar (.int type x)) := by
  have hoffer : v.offer.integer? = some x := by
    rw [← hv]
    cases v <;> rfl
  simp only [take, offer, accept, IntType.accept, hoffer, hx, if_true]
  rfl

lemma take_char (c : Char) :
    char.take (.ofText (String.singleton c)) = .ok (.scalar (.char c)) := by
  simp [take, offer, accept, Value.ofText, Text.decode_encode]

lemma take_text (expectation s : String) :
    (text expectation).take (.ofText s) = .ok (.scalar (.text s)) := by
  simp [take, offer, accept, Value.ofText, Text.decode_encode]

/-- A leaf that gives one value. -/
def Flat : Leaf → Prop
  | int type => type.bits ≤ 64
  | ignored => False
  | _ => True

/-- **A leaf takes the value that it gives.** -/
theorem take_value {l : Leaf} {d : Datum} (hl : l.Flat) (hd : l.Holds d)
    (hnan : ∀ y, d = .scalar (.float32 y) → y.isNaN = false) :
    ∃ v, d.value? = some v ∧ l.take v = .ok d := by
  cases hd with
  | bool => exact ⟨_, rfl, rfl⟩
  | @int type x hx =>
    obtain ⟨v, hvalue, hinteger⟩ := IntType.exists_value? hx hl
    exact ⟨v, (Datum.value?_int type x).trans hvalue, take_int hinteger hx⟩
  | @float32 y =>
    refine ⟨_, rfl, ?_⟩
    have hback : (Binary64.widen y).narrow = y := by
      rw [Binary64.narrow_widen, Binary32.quiet_of_not_isNaN (hnan y rfl)]
    change Except.ok (Datum.scalar (.float32 (Binary64.widen y).narrow)) = _
    rw [hback]
  | float64 => exact ⟨_, rfl, rfl⟩
  | char => exact ⟨_, rfl, take_char _⟩
  | text => exact ⟨_, rfl, take_text _ _⟩
  | bytes => exact ⟨_, rfl, rfl⟩
  | @value v => exact ⟨v, rfl, by cases v <;> rfl⟩
  | ignored => exact hl.elim

end Leaf

/-! ## Flat shapes -/

namespace Shape

/-- A shape that is a leaf and gives one value. -/
def FlatLeaf : Shape → Prop
  | leaf l => l.Flat
  | _ => False

/-- A shape that gives one value for each of its leaves.  Options, wrappers, tuples and records of
flat shapes are flat, however they are nested. -/
def Flat (s : Shape) : Prop := ∀ leaf ∈ s.leaves, leaf.FlatLeaf

/-- Data of flat leaves are leaves. -/
lemma flatMap_leaves_of_flat {leaves : List Shape} {data : List Datum}
    (hdata : List.Forall₂ Holds leaves data) (hflat : ∀ leaf ∈ leaves, leaf.FlatLeaf) :
    data.flatMap Datum.leaves = data := by
  induction hdata with
  | nil => rfl
  | @cons leaf d leaves data hd _ ih =>
    obtain ⟨hleaf, hflat⟩ := List.forall_mem_cons.mp hflat
    have hd : d.parts? = none := by
      cases hd <;> try exact hleaf.elim
      case leaf l hd => cases hd <;> rfl
    rw [List.flatMap_cons, ih hflat, Datum.leaves_of_leaf hd, List.singleton_append]

/-- Data of flat leaves are rebuilt from their values, whatever follows these. -/
lemma exists_gives_of_flat {leaves : List Shape} {data : List Datum}
    (hdata : List.Forall₂ Holds leaves data) (hflat : ∀ leaf ∈ leaves, leaf.FlatLeaf)
    (hnan : ∀ y, .scalar (.float32 y) ∈ data → y.isNaN = false) :
    ∃ values, Gives data values ∧
      ∀ rest, rebuildAll leaves (values ++ rest) = (.ok data, rest) := by
  induction hdata with
  | nil =>
    refine ⟨[], .nil, ?_⟩
    intro rest
    rfl
  | @cons leaf d leaves data hd _ ih =>
    obtain ⟨hleaf, hflat⟩ := List.forall_mem_cons.mp hflat
    obtain ⟨values, hvalues, hrebuild⟩ :=
      ih hflat fun y hy => hnan y (List.mem_cons_of_mem d hy)
    cases hd <;> try exact hleaf.elim
    case leaf l hd =>
      obtain ⟨v, hv, htake⟩ := Leaf.take_value hleaf hd fun y hy => hnan y (hy ▸ List.mem_cons_self)
      refine ⟨v :: values, .cons hv hvalues, ?_⟩
      intro rest
      rw [List.cons_append, rebuildAll, rebuild, Leaf.rebuild, htake]
      simp only [hrebuild]
      rfl

/-- Data that were rebuilt for the leaves make up what they are the leaves of. -/
lemma rebuild_of_leaves {s : Shape} {x : Datum} {data : List Datum} {values rest : List Value}
    (hgroup : s.group data = x) (h : rebuildAll s.leaves values = (.ok data, rest)) :
    s.rebuild values = (.ok x, rest) := by
  rw [rebuild_eq_leaves, h, ← hgroup]
  rfl

/-- **A datum of a flat shape is rebuilt from its values, whatever follows these.** -/
theorem Holds.exists_gives {s : Shape} {x : Datum} (hx : s.Holds x) (hflat : s.Flat)
    (hpresent : .absent ∉ x.leaves)
    (hnan : ∀ y, .scalar (.float32 y) ∈ x.leaves → y.isNaN = false) :
    ∃ values, Gives x.leaves values ∧ values.length = s.leaves.length ∧
      ∀ rest, s.rebuild (values ++ rest) = (.ok x, rest) := by
  obtain ⟨data, hdata, hleaves, hgroup⟩ := hx.exists_leaves hpresent
  rw [hleaves, flatMap_leaves_of_flat hdata hflat] at hnan ⊢
  obtain ⟨values, hvalues, hrebuild⟩ := exists_gives_of_flat hdata hflat hnan
  refine ⟨values, hvalues, by rw [← hvalues.length_eq, hdata.length_eq], ?_⟩
  intro rest
  exact rebuild_of_leaves hgroup (hrebuild rest)

/-! ## A sequence at the end -/

/-- **A sequence takes all values that are left.**  Its elements take a value at least, so there are
no more elements than values. -/
theorem rebuildRest_of_items {e : Shape} (hflat : e.Flat) (hne : e.leaves ≠ [])
    {items : List Datum} (hitems : ∀ d ∈ items, e.Holds d)
    (hpresent : .absent ∉ items.flatMap Datum.leaves)
    (hnan : ∀ y, .scalar (.float32 y) ∈ items.flatMap Datum.leaves → y.isNaN = false) :
    ∃ values, Gives (items.flatMap Datum.leaves) values ∧ items.length ≤ values.length ∧
      ∀ bound, items.length ≤ bound → rebuildRest e.rebuild bound values = (.ok items, []) := by
  induction items with
  | nil =>
    refine ⟨[], .nil, le_rfl, ?_⟩
    intro bound _
    rw [rebuildRest]
  | cons d items ih =>
    obtain ⟨hd, hitems⟩ := List.forall_mem_cons.mp hitems
    rw [List.flatMap_cons] at hpresent hnan ⊢
    obtain ⟨hfirst, hothers⟩ := not_or.mp (List.mem_append.not.mp hpresent)
    obtain ⟨front, hfront, hlength, hrebuild⟩ :=
      hd.exists_gives hflat hfirst fun y hy => hnan y (List.mem_append_left _ hy)
    obtain ⟨values, hvalues, hle, hrest⟩ :=
      ih hitems hothers fun y hy => hnan y (List.mem_append_right _ hy)
    have hpos : 0 < front.length := hlength ▸ List.length_pos_of_ne_nil hne
    refine ⟨front ++ values, List.rel_append hfront hvalues, ?_, ?_⟩
    · rw [List.length_cons, List.length_append]
      omega
    · intro bound hbound
      obtain ⟨bound, rfl⟩ := Nat.exists_eq_add_of_le' (Nat.one_le_of_lt hbound)
      obtain ⟨v, front, rfl⟩ := List.exists_cons_of_length_pos hpos
      rw [List.cons_append, rebuildRest, ← List.cons_append, hrebuild]
      · simp only [hrest bound (Nat.le_of_succ_le_succ hbound)]
        rfl
      · exact List.cons_ne_nil v (front ++ values)

/-- A datum whose shape ends with a sequence is rebuilt from its values. -/
theorem Holds.exists_gives_of_sequence {s e : Shape} {front : List Shape} {x : Datum}
    (hx : s.Holds x) (hs : s.leaves = front ++ [.sequence e])
    (hfront : ∀ leaf ∈ front, leaf.FlatLeaf) (hflat : e.Flat) (hne : e.leaves ≠ [])
    (hpresent : .absent ∉ x.leaves)
    (hnan : ∀ y, .scalar (.float32 y) ∈ x.leaves → y.isNaN = false) :
    ∃ values, Gives x.leaves values ∧ s.rebuild values = (.ok x, []) := by
  obtain ⟨data, hdata, hleaves, hgroup⟩ := hx.exists_leaves hpresent
  rw [hs] at hdata
  obtain ⟨first, last, rfl, hfirst, hlast⟩ : ∃ first last, data = first ++ last ∧
      List.Forall₂ Holds front first ∧ List.Forall₂ Holds [.sequence e] last := by
    have htake := List.forall₂_take front.length hdata
    have hdrop := List.forall₂_drop front.length hdata
    rw [List.take_left] at htake
    rw [List.drop_left] at hdrop
    exact ⟨_, _, (List.take_append_drop _ _).symm, htake, hdrop⟩
  obtain ⟨d, tail, hd, htail, rfl⟩ := List.forall₂_cons_left_iff.mp hlast
  obtain rfl := List.forall₂_nil_left_iff.mp htail
  obtain ⟨items, rfl, hitems⟩ : ∃ items, d = .sequence items ∧ ∀ d ∈ items, e.Holds d := by
    cases hd with
    | sequence hitems => exact ⟨_, rfl, hitems⟩
  have hsequence : (Datum.sequence items).leaves = items.flatMap Datum.leaves :=
    Datum.leaves_of_group rfl
  rw [List.flatMap_append, flatMap_leaves_of_flat hfirst hfront, List.flatMap_singleton,
    hsequence] at hleaves
  rw [hleaves] at hpresent hnan ⊢
  obtain ⟨firstValues, hfirstGives, hfirstRebuild⟩ :=
    exists_gives_of_flat hfirst hfront fun y hy => hnan y (List.mem_append_left _ hy)
  obtain ⟨values, hgives, hle, hrest⟩ := rebuildRest_of_items hflat hne hitems
    (fun hmem => hpresent (List.mem_append_right _ hmem))
    fun y hy => hnan y (List.mem_append_right _ hy)
  refine ⟨firstValues ++ values, List.rel_append hfirstGives hgives, rebuild_of_leaves hgroup ?_⟩
  rw [hs, rebuildAll_append, hfirstRebuild]
  simp only [rebuildAll_singleton, rebuild, hrest _ hle]
  rfl

lemma ofValues_of_rebuild {s : Shape} {x : Datum} {values : List Value}
    (h : s.rebuild values = (.ok x, [])) : s.ofValues values = .ok x := by
  rw [ofValues, h]
  rfl

/-- **Rebuilding undoes flattening.**  Of a datum in which no option is absent and no binary32 number
is a NaN: where the shape is flat, the datum is flattened to values from which it is rebuilt, and
what follows these values is left as it is; and where the flat leaves end with a sequence whose
elements take at least one value each, the datum is rebuilt from exactly its values. -/
theorem ofValues_flatten {s : Shape} {x : Datum} (hx : s.Holds x) (hpresent : .absent ∉ x.leaves)
    (hnan : ∀ y, .scalar (.float32 y) ∈ x.leaves → y.isNaN = false) :
    (s.Flat → ∃ values, x.flatten = .ok values ∧
      (∀ rest, s.rebuild (values ++ rest) = (.ok x, rest)) ∧ s.ofValues values = .ok x) ∧
    ∀ front e, s.leaves = front ++ [.sequence e] → (∀ leaf ∈ front, leaf.FlatLeaf) → e.Flat →
      e.leaves ≠ [] → ∃ values, x.flatten = .ok values ∧ s.ofValues values = .ok x := by
  constructor
  · intro hflat
    obtain ⟨values, hgives, -, hrebuild⟩ := hx.exists_gives hflat hpresent hnan
    have hexact := hrebuild []
    rw [List.append_nil] at hexact
    exact ⟨values, hgives.flatten_eq, hrebuild, ofValues_of_rebuild hexact⟩
  · intro front e hs hfront hflat hne
    obtain ⟨values, hgives, hrebuild⟩ :=
      hx.exists_gives_of_sequence hs hfront hflat hne hpresent hnan
    exact ⟨values, hgives.flatten_eq, ofValues_of_rebuild hrebuild⟩

/-- A record with a wrapper, an option and a group of nothing; and a text with pairs behind it. -/
theorem ofValues_flatten_nested :
    (∃ values,
      (Datum.record "Sample" [("id", .wrapper "Id" (.scalar (.int .byte 9))),
        ("ratio", .present (.scalar (.float32 ⟨0x3f000000⟩))), ("nothing", .tuple [])]).flatten =
          .ok values ∧
      ∀ rest, (Shape.record "Sample" [("id", .wrapper "Id" (.leaf (.int .byte))),
        ("ratio", .option (.leaf .float32)), ("nothing", .tuple [])]).rebuild (values ++ rest) =
          (.ok (.record "Sample" [("id", .wrapper "Id" (.scalar (.int .byte 9))),
            ("ratio", .present (.scalar (.float32 ⟨0x3f000000⟩))), ("nothing", .tuple [])]), rest)) ∧
    ∃ values,
      (Datum.tuple [.scalar (.text "é"), .sequence [.tuple [.scalar (.bool true), .value (.int 3)],
        .tuple [.scalar (.bool false), .value (.bytes [0xff])]]]).flatten = .ok values ∧
      (Shape.tuple [.leaf (.text "a string"),
        .sequence (.tuple [.leaf .bool, .leaf .value])]).ofValues values =
          .ok (.tuple [.scalar (.text "é"), .sequence [.tuple [.scalar (.bool true), .value (.int 3)],
            .tuple [.scalar (.bool false), .value (.bytes [0xff])]]]) := by
  constructor
  · have hholds : (Shape.record "Sample" [("id", .wrapper "Id" (.leaf (.int .byte))),
        ("ratio", .option (.leaf .float32)), ("nothing", .tuple [])]).Holds
        (.record "Sample" [("id", .wrapper "Id" (.scalar (.int .byte 9))),
          ("ratio", .present (.scalar (.float32 ⟨0x3f000000⟩))), ("nothing", .tuple [])]) :=
      .record rfl (.cons (.wrapper (.leaf (.int (by decide))))
        (.cons (.present (.leaf .float32)) (.cons (.tuple .nil) .nil)))
    obtain ⟨values, hflatten, hrebuild, -⟩ := (ofValues_flatten hholds
      (by simp [Datum.leaves, Datum.leavesOfFields, Datum.leavesOfAll])
      (by simp [Datum.leaves, Datum.leavesOfFields, Datum.leavesOfAll]; decide)).1
        (by simp [Flat, leaves, leavesOfFields, leavesOfAll, FlatLeaf, Leaf.Flat, IntType.byte])
    exact ⟨values, hflatten, hrebuild⟩
  · have hholds : (Shape.tuple [.leaf (.text "a string"),
        .sequence (.tuple [.leaf .bool, .leaf .value])]).Holds
        (.tuple [.scalar (.text "é"), .sequence [.tuple [.scalar (.bool true), .value (.int 3)],
          .tuple [.scalar (.bool false), .value (.bytes [0xff])]]]) := by
      refine .tuple (.cons (.leaf .text) (.cons (.sequence ?_) .nil))
      simp only [List.forall_mem_cons]
      exact ⟨.tuple (.cons (.leaf .bool) (.cons (.leaf .value) .nil)),
        .tuple (.cons (.leaf .bool) (.cons (.leaf .value) .nil)), by simp⟩
    exact (ofValues_flatten hholds
      (by simp [Datum.leaves, Datum.leavesOfAll])
      (by simp [Datum.leaves, Datum.leavesOfAll])).2
        [.leaf (.text "a string")] (.tuple [.leaf .bool, .leaf .value]) rfl
        (by simp [FlatLeaf, Leaf.Flat])
        (by simp [Flat, leaves, leavesOfAll, FlatLeaf, Leaf.Flat]) (by simp [leaves, leavesOfAll])

end Shape

end PackedRecord
