import Mathlib
import PackedRecord.Proofs.Map.Entries
import PackedRecord.Proofs.Record.RoundTrip
import PackedRecord.Proofs.Wire.Canonical

/-!
# Values by name

A record takes its values from a map by looking its names up in their order, and the first name
that is not in the map is the fault, whatever else is wrong (`FirstMissing`).  So only the values
under the names of the record matter, and neither the order of the map nor what it holds besides.

Into a map, a record gives its values by pairing them with its names.  Pairing two lists silently
drops what the longer one has in excess, and a map keeps one value for a name that comes twice.
That nothing is lost this way is a matter of the declaration: the names of a record that was built
are different (`Record.nodup_of_build`), and there are as many of them as the layout has fields
with values (`Record.length_of_build`).

Both directions are told by one relation between names and values, `Binds`: each name is in the map
with its value.  Looking up succeeds exactly with the values that the names are bound to
(`Record.valuesOf_eq_ok_iff`), and a map binds its names to its values (`OrderedMap.binds_values`).
-/

namespace PackedRecord

lemma mapError_eq_ok {ε δ α : Type} {f : ε → δ} {x : Except ε α} {a : α}
    (h : x.mapError f = .ok a) : x = .ok a := by
  cases x with
  | ok b => exact congrArg Except.ok (Except.ok.inj h)
  | error e => cases h

/-! ## Maps -/

namespace OrderedMap

variable {α : Type} {m : OrderedMap α}

/-- A map has the names, each with the value at the same place. -/
def Binds (m : OrderedMap α) (names : List String) (values : List α) : Prop :=
  List.Forall₂ (fun name value => m.get? name = some value) names values

/-- A map binds its names to its values. -/
theorem binds_values (m : OrderedMap α) : m.Binds m.keys m.values := by
  rw [Binds, keys, values, List.forall₂_map_left_iff, List.forall₂_map_right_iff, List.forall₂_same]
  exact lookup_of_mem m.nodup

/-- **Pairing keeps everything**, if there are as many names as values and no name comes twice. -/
theorem ofList_zip {names : List String} {values : List α} (hnodup : names.Nodup)
    (hlength : names.length = values.length) :
    (ofList (names.zip values)).keys = names ∧ (ofList (names.zip values)).values = values := by
  have hfst : (names.zip values).map Prod.fst = names := List.map_fst_zip hlength.le
  have hsnd : (names.zip values).map Prod.snd = values := List.map_snd_zip hlength.ge
  have hentries : (ofList (names.zip values)).toList = names.zip values := by
    rw [ofList, toList_foldl_insert (hfst.symm ▸ hnodup) (fun _ _ => List.not_mem_nil)]
    rfl
  rw [keys, OrderedMap.values, hentries]
  exact ⟨hfst, hsnd⟩

/-- The first of the names that a map does not have. -/
def FirstMissing (m : OrderedMap α) (names : List String) (missing : String) : Prop :=
  ∃ before after, names = before ++ missing :: after ∧ (∀ name ∈ before, name ∈ m.keys) ∧
    missing ∉ m.keys

end OrderedMap

open OrderedMap (Binds)

/-! ## Looking values up -/

namespace Record

variable {m n : OrderedMap Value} {names : List String} {values : List Value}

/-- Looking up succeeds with the values that the names are bound to. -/
theorem valuesOf_eq_ok_iff : valuesOf m names = .ok values ↔ m.Binds names values := by
  induction names generalizing values with
  | nil => simp [valuesOf, Binds, eq_comm]
  | cons name names ih =>
    rw [valuesOf, Binds, List.forall₂_cons_left_iff]
    cases hname : m.get? name with
    | none => simp
    | some v =>
      constructor
      · intro h
        obtain ⟨rest, hrest, rfl⟩ := map_eq_ok h
        exact ⟨v, rest, rfl, ih.mp hrest, rfl⟩
      · rintro ⟨w, rest, hw, hrest, rfl⟩
        obtain rfl := Option.some.inj hw
        simp only [ih.mpr hrest, Except.map]

/-- Looking up stops at the first name that is missing. -/
lemma valuesOf_of_firstMissing {missing : String} (h : m.FirstMissing names missing) :
    valuesOf m names = .error (.missingField missing) := by
  obtain ⟨before, after, rfl, hbefore, hmissing⟩ := h
  induction before with
  | nil => simp only [List.nil_append, valuesOf, OrderedMap.get?_eq_none_iff_notMem.mpr hmissing]
  | cons name before ih =>
    obtain ⟨hname, hbefore⟩ := List.forall_mem_cons.mp hbefore
    have hsome : m.get? name ≠ none := fun hnone =>
      OrderedMap.get?_eq_none_iff_notMem.mp hnone hname
    obtain ⟨v, hv⟩ := Option.ne_none_iff_exists'.mp hsome
    simp only [List.cons_append, valuesOf, hv, ih hbefore, Except.map]

/-- Either all names are there, with values, or one of them is the first that is not. -/
lemma exists_binds_or_firstMissing (m : OrderedMap Value) (names : List String) :
    (∃ values, m.Binds names values) ∨ ∃ missing, m.FirstMissing names missing := by
  induction names with
  | nil => exact Or.inl ⟨[], .nil⟩
  | cons name names ih =>
    cases hname : m.get? name with
    | none =>
      exact Or.inr ⟨name, [], names, rfl, by simp, OrderedMap.get?_eq_none_iff_notMem.mp hname⟩
    | some v =>
      rcases ih with ⟨values, hvalues⟩ | ⟨missing, before, after, rfl, hbefore, hmissing⟩
      · exact Or.inl ⟨v :: values, .cons hname hvalues⟩
      · have hmem : name ∈ m.keys := by
          by_contra habsent
          rw [OrderedMap.get?_eq_none_iff_notMem.mpr habsent] at hname
          cases hname
        exact Or.inr ⟨missing, name :: before, after, rfl,
          List.forall_mem_cons.mpr ⟨hmem, hbefore⟩, hmissing⟩

lemma valuesOf_congr (h : ∀ name ∈ names, m.get? name = n.get? name) :
    valuesOf m names = valuesOf n names := by
  induction names with
  | nil => rfl
  | cons name names ih =>
    obtain ⟨hname, hnames⟩ := List.forall_mem_cons.mp h
    rw [valuesOf, valuesOf, hname, ih hnames]

variable {r : Record} {policy : Policy}

/-- Values that the map has are packed as they would be by themselves. -/
lemma packMapWith_of_binds (h : m.Binds r.fieldNames values) :
    r.packMapWith policy m = (r.layout.packWith policy values).mapError .pack := by
  simp only [packMapWith, valuesOf_eq_ok_iff.mpr h]

/-- A missing name is the fault exactly when it is the first one. -/
theorem packMapWith_eq_missing_iff {missing : String} :
    r.packMapWith policy m = .error (.missingField missing) ↔
      m.FirstMissing r.fieldNames missing := by
  constructor
  · intro h
    rcases exists_binds_or_firstMissing m r.fieldNames with ⟨values, hvalues⟩ | ⟨first, hfirst⟩
    · rw [packMapWith_of_binds hvalues] at h
      cases hpack : r.layout.packWith policy values with
      | ok bytes =>
        rw [hpack] at h
        cases h
      | error fault =>
        rw [hpack] at h
        cases h
    · simp only [packMapWith, valuesOf_of_firstMissing hfirst] at h
      obtain rfl := Fault.missingField.inj (Except.error.inj h)
      exact hfirst
  · intro h
    simp only [packMapWith, valuesOf_of_firstMissing h]

/-! ## Records that were built -/

variable {room : Room} {name : String} {parts : List Part}

/-- No two fields of a record have the same name. -/
theorem nodup_of_build (hr : buildWithin room name parts = .ok r) : r.fieldNames.Nodup := by
  obtain ⟨hnames, hnone, -⟩ := of_build hr
  rw [hnames]
  by_contra hrepeated
  have hold : ¬ ((parts.filterMap Part.name?).Nodup ∧
      ∀ other ∈ parts.filterMap Part.name?, other ∉ ([] : List String)) := fun h => hrepeated h.1
  obtain ⟨repeated, -, -, hfound, -⟩ := exists_firstRepeated? hold
  rw [hnone] at hfound
  cases hfound

/-- A record has a name for each field with a value. -/
theorem length_of_build (hr : buildWithin room name parts = .ok r)
    (hsizes : ∀ part ∈ parts, part.size ≤ maxSize) :
    r.fieldNames.length = r.layout.carriers.length := by
  obtain ⟨hcarriers, -⟩ := map_field_carriers_of_build hr hsizes
  have hlength := congrArg List.length hcarriers
  rw [List.length_map, List.length_map, length_types] at hlength
  rw [hlength, (of_build hr).1]

end Record

/-! ## Out of a buffer and back -/

namespace Layout

variable {l : Layout}

/-- As many values come out of a buffer as there are fields with values. -/
lemma length_of_unpack (hl : l.WellFormed) {buffer : Array UInt8} {values : List Value}
    (h : l.unpack buffer = .ok values) : values.length = l.carriers.length := by
  obtain ⟨pieces, -, hfills, rfl, -⟩ := (unpack_eq_ok_iff hl).mp h
  exact (encodes_decoded hfills hl.proper .standard).1.length_values

/-- What is unpacked from a packed record is packed to the same bytes again, under every policy. -/
lemma packWith_again (hl : l.WellFormed) {policy : Policy} {values out : List Value}
    {bytes : Array UInt8} (h : l.packWith policy values = .ok bytes)
    (hout : l.unpack bytes = .ok out) (again : Policy) : l.packWith again out = .ok bytes := by
  obtain ⟨pieces, henc, -, hle, hbytes⟩ := encodes_of_packWith hl h
  have hfills := henc.fills hl.proper
  have hsize : bytes.size ≤ maxSize := by
    rwa [← Array.length_toList, hbytes]
  have hread : l.unpack bytes = .ok (decoded l.slots pieces) :=
    (unpack_eq_ok_iff hl).mpr ⟨pieces, hbytes, hfills, rfl, hsize⟩
  rw [hout] at hread
  rw [Except.ok.inj hread, packWith_decoded hl hfills hle again, henc.canonical_eq, ← hbytes]

end Layout

/-- Where a map has the normal forms of the values of another, each name has in the one the normal
form of what it has in the other. -/
lemma OrderedMap.Binds.normal {m m' : OrderedMap Value} {names : List String} {slots : List Slot}
    {values out : List Value} (hvalues : m.Binds names values) (hout : m'.Binds names out)
    (hlength : values.length = slots.length)
    (hnormal : out.map some = List.zipWith Slot.normal? slots values) :
    List.Forall₂ (fun name s => ∃ v w, m.get? name = some v ∧ m'.get? name = some w ∧
      s.normal? v = some w) names slots := by
  induction hvalues generalizing out slots with
  | nil =>
    obtain rfl := List.length_eq_zero_iff.mp hlength.symm
    exact .nil
  | @cons name v names values hv _ ih =>
    obtain ⟨w, rest, hw, hbinds, rfl⟩ := List.forall₂_cons_left_iff.mp hout
    cases slots with
    | nil => cases hlength
    | cons s slots =>
      rw [List.map_cons, List.zipWith_cons_cons] at hnormal
      obtain ⟨hfirst, hrest⟩ := List.cons.inj hnormal
      exact .cons ⟨v, w, hv, hw, hfirst.symm⟩ (ih hbinds (Nat.succ.inj hlength) hrest)

namespace Record

variable {room : Room} {name : String} {parts : List Part} {r : Record}

/-- What is unpacked into a map has the names of the record, in their order, and the values that are
unpacked. -/
theorem unpackMap_of_unpack (hr : buildWithin room name parts = .ok r)
    (hsizes : ∀ part ∈ parts, part.size ≤ maxSize) {buffer : Array UInt8} {values : List Value}
    (h : r.unpack buffer = .ok values) :
    ∃ m, r.unpackMap buffer = .ok m ∧ m.keys = r.fieldNames ∧ m.values = values ∧
      m.Binds r.fieldNames values := by
  have hwf := Layout.wellFormed_of_compile (compile_of_build hr)
  have hunpack : r.layout.unpack buffer = .ok values := mapError_eq_ok h
  have hlength : r.fieldNames.length = values.length := by
    rw [length_of_build hr hsizes, Layout.length_of_unpack hwf hunpack]
  obtain ⟨hkeys, hvalues⟩ := OrderedMap.ofList_zip (nodup_of_build hr) hlength
  refine ⟨.ofList (r.fieldNames.zip values), ?_, hkeys, hvalues, ?_⟩
  · simp only [unpackMap, h, Except.map]
  · have hbinds := (OrderedMap.ofList (r.fieldNames.zip values)).binds_values
    rwa [hkeys, hvalues] at hbinds

/-- **A record packs from maps and unpacks into maps as it does from values and into values.**  Of a
record that was built from capacities and pads of at most the largest size: a missing name is the
fault where it is the first, and where none is missing the values are packed that the map has for
the names, so that nothing else in the map matters.  What is unpacked is paired with the names, and
nothing is lost or repeated.  And what was packed from a map comes back as the map of the normal
forms, which is packed to the same bytes under every policy. -/
theorem packMapWith_unpackMap (hr : buildWithin room name parts = .ok r)
    (hsizes : ∀ part ∈ parts, part.size ≤ maxSize) :
    (∀ policy (m : OrderedMap Value) missing,
        r.packMapWith policy m = .error (.missingField missing) ↔
          m.FirstMissing r.fieldNames missing) ∧
      (∀ policy (m : OrderedMap Value), (∀ field ∈ r.fieldNames, field ∈ m.keys) →
        ∃ values, m.Binds r.fieldNames values ∧
          r.packMapWith policy m = (r.layout.packWith policy values).mapError .pack) ∧
      (∀ policy (m n : OrderedMap Value), (∀ field ∈ r.fieldNames, m.get? field = n.get? field) →
        r.packMapWith policy m = r.packMapWith policy n) ∧
      (∀ buffer,
        (∀ fault, r.unpackMap buffer = .error fault ↔ r.unpack buffer = .error fault) ∧
          ∀ values, r.unpack buffer = .ok values →
            ∃ m, r.unpackMap buffer = .ok m ∧ m.keys = r.fieldNames ∧ m.values = values ∧
              m.Binds r.fieldNames values) ∧
      (∀ policy (m : OrderedMap Value) bytes, r.packMapWith policy m = .ok bytes →
        ∃ m', r.unpackMap bytes = .ok m' ∧ m'.keys = r.fieldNames ∧
          List.Forall₂ (fun field s => ∃ v w, m.get? field = some v ∧ m'.get? field = some w ∧
            s.normal? v = some w) r.fieldNames r.layout.carriers ∧
          ∀ again, r.packMapWith again m' = .ok bytes) := by
  refine ⟨fun policy m missing => packMapWith_eq_missing_iff, ?_, ?_, ?_, ?_⟩
  · intro policy m hall
    rcases exists_binds_or_firstMissing m r.fieldNames with
      ⟨values, hvalues⟩ | ⟨missing, before, after, hsplit, -, hmissing⟩
    · exact ⟨values, hvalues, packMapWith_of_binds hvalues⟩
    · have hmem : missing ∈ r.fieldNames := by
        rw [hsplit]
        simp
      exact absurd (hall missing hmem) hmissing
  · intro policy m n hagree
    rw [packMapWith, packMapWith, valuesOf_congr hagree]
  · intro buffer
    refine ⟨?_, fun values h => unpackMap_of_unpack hr hsizes h⟩
    intro fault
    unfold unpackMap
    cases r.unpack buffer with
    | ok values => simp [Except.map]
    | error found => simp [Except.map]
  · intro policy m bytes h
    rcases exists_binds_or_firstMissing m r.fieldNames with ⟨values, hvalues⟩ | ⟨missing, hfirst⟩
    · rw [packMapWith_of_binds hvalues] at h
      have hpack : r.layout.packWith policy values = .ok bytes := mapError_eq_ok h
      have hwf := Layout.wellFormed_of_compile (compile_of_build hr)
      obtain ⟨out, hout, hnormal⟩ := Layout.exists_unpack_of_packWith hwf hpack
      have hunpack : r.unpack bytes = .ok out := by
        rw [unpack, hout]
        rfl
      obtain ⟨m', hm', hkeys, -, hbinds⟩ := unpackMap_of_unpack hr hsizes hunpack
      have hlength : values.length = r.layout.carriers.length := by
        rw [← length_of_build hr hsizes, List.Forall₂.length_eq hvalues]
      refine ⟨m', hm', hkeys, hvalues.normal hbinds hlength hnormal, ?_⟩
      intro again
      rw [packMapWith_of_binds hbinds, Layout.packWith_again hwf hpack hout again]
      rfl
    · rw [packMapWith_eq_missing_iff.mpr hfirst] at h
      cases h

/-- A map in another order than the record, with a name that the record does not have: the integer
wraps, and what comes back has the order of the record. -/
theorem packMapWith_unpackMap_reordered :
    ∃ r m, build "R" [.field "a" .int8, .pad 1, .field "b" .dynamic] = .ok r ∧
      r.packMapWith .standard
        (.ofList [("b", .bytes [7]), ("c", .bool true), ("a", .int 200)]) =
          .ok #[0xc8, 0, 1, 7] ∧
      r.unpackMap #[0xc8, 0, 1, 7] = .ok m ∧ m.keys = ["a", "b"] ∧
      m.get? "a" = some (.int (-56)) ∧ r.packMapWith .strict m = .ok #[0xc8, 0, 1, 7] := by
  obtain ⟨r, hr⟩ : ∃ r, build "R" [.field "a" .int8, .pad 1, .field "b" .dynamic] = .ok r :=
    ⟨_, rfl⟩
  have hpack : r.packMapWith .standard
      (.ofList [("b", .bytes [7]), ("c", .bool true), ("a", .int 200)]) =
        .ok #[0xc8, 0, 1, 7] := by
    obtain rfl := Except.ok.inj hr
    decide +kernel
  obtain ⟨m, hm, hkeys, hnormal, hagain⟩ :=
    (packMapWith_unpackMap hr (by decide)).2.2.2.2 .standard _ _ hpack
  obtain rfl := Except.ok.inj hr
  obtain ⟨⟨v, w, hv, hw, hvw⟩, -⟩ := List.forall₂_cons.mp hnormal
  obtain rfl := Option.some.inj hv
  exact ⟨_, m, hr, hpack, hm, hkeys, hw.trans hvw.symm, hagain .strict⟩

end Record

end PackedRecord
