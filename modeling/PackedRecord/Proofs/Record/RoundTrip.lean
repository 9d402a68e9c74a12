import Mathlib
import PackedRecord.Proofs.Cache.Transparency
import PackedRecord.Proofs.Datum.RoundTrip
import PackedRecord.Proofs.Record.Declaration
import PackedRecord.Proofs.Wire.RoundTrip
import PackedRecord.Proofs.Wire.Sizing

/-!
# Data through a record and back

A datum is packed by a record and unpacked again as it was, if the declared types can hold its
leaves.  On the way it is flattened to values, the values are written as bytes, read as values and
put together to a datum, and every stage changes the representation.

The meeting point of the stages is the list of values.  A field whose type carries a leaf gives back
the very value that the leaf gave (`FieldType.keeps`): integers of the same signedness that fit,
numbers that the field does not round, strings that it does not cut or fill.  So the values that are
unpacked are those that were flattened, and they are known to be enough (`Shape.Holds.exists_gives`).

Nothing else can go wrong than the size.  The static region and the dynamic strings may be too much
together, although each of them is a size, and packing then ends with a fault.  So the sum decides
between the round trip and the fault (`Layout.pack_of_keepsAll`), and the fault does occur
(`Record.packDatum_overflow`).
-/

namespace PackedRecord

/-! ## What a field carries -/

namespace FieldType

/-- The leaves that a field of this type carries: integers of its signedness that are not wider,
numbers of no more precision, truth values, characters, and texts in strings of any kind. -/
def Carries (type : FieldType) : Shape → Prop
  | .leaf (.int t) =>
    type.field.tag.kind = (if t.signed then .signedInt else .unsignedInt) ∧
      t.bits ≤ 8 * type.size
  | .leaf .float32 => type = float32 ∨ type = float64
  | .leaf .float64 => type = float64
  | .leaf .bool => type = bool
  | .leaf .char => type = char
  | .leaf (.text _) => type = dynamic ∨ (∃ n, type = pascal n) ∨ ∃ n, type = bytes n
  | _ => False

/-- Whether a datum has place in a field of this type: an ASCII character, or a text of a length
that the string keeps as it is. -/
def Fits (type : FieldType) : Datum → Prop
  | .scalar (.char c) => c.toNat < 128
  | .scalar (.text text) =>
    match type with
    | dynamic => (Text.encode text).length ≤ maxStringLength
    | pascal n => (Text.encode text).length ≤ min (n - 1) maxStringLength
    | bytes n => (Text.encode text).length = n
    | _ => True
  | _ => True

/-- Bytes that a datum in a field of this type takes besides the static region. -/
def dynamicSize (type : FieldType) : Datum → ℕ
  | .scalar (.text text) => if type = dynamic then (Text.encode text).length + 1 else 0
  | _ => 0

end FieldType

/-! ## A field that keeps a value -/

/-- A field takes a value whole, gives it back as it is, and needs `moved` bytes besides the static
region for it. -/
structure Slot.Keeps (s : Slot) (v : Value) (moved : ℕ) : Prop where
  takes : ∃ bytes, s.payload .standard v = .ok bytes
  normal : s.normal? v = some v
  whole : Policy.standard.Keeps (s, v)
  stringSize : s.stringSize v = moved

namespace Slot

variable {s : Slot}

lemma keeps_of_static {v : Value} (hs : s.tag ≠ .dynamic)
    (htakes : ∃ bytes, s.payload .standard v = .ok bytes) (hnormal : s.normal? v = some v) :
    s.Keeps v 0 where
  takes := htakes
  normal := hnormal
  whole hdynamic := absurd hdynamic hs
  stringSize := stringSize_of_not_dynamic hs v

lemma ne_dynamic_of_kind {kind : FieldKind} (hs : s.tag.kind = kind)
    (hkind : kind ≠ .dynamicString) : s.tag ≠ .dynamic := by
  rw [Ne, Tag.eq_dynamic_iff, hs]
  exact hkind

/-- An integer field keeps the integers of a type that is not wider. -/
lemma keeps_int {t : IntType} {x : ℤ} {v : Value}
    (hs : s.tag.kind = if t.signed then .signedInt else .unsignedInt)
    (hbits : t.bits ≤ 8 * s.tag.width) (hx : t.holds x = true) (hv : t.value? x = some v) :
    s.Keeps v 0 := by
  have hbits' : t.bits ≤ 64 := by
    have := s.tag.width_le
    omega
  have hinteger : v.integer? = some x := by
    obtain ⟨w, hw, hinteger⟩ := IntType.exists_value? hx hbits'
    rw [hv] at hw
    rwa [Option.some.inj hw]
  have htakes (hkind : s.tag.kind = .signedInt ∨ s.tag.kind = .unsignedInt) :
      ∃ bytes, s.payload .standard v = .ok bytes := by
    have hword : s.integerWord .standard v = .ok (Word.ofInt s.tag.width x) :=
      integerWord_of_wrap rfl hinteger
    rcases hkind with hkind | hkind <;> exact ⟨_, by simp only [payload, hkind]; exact hword⟩
  simp only [IntType.value?, if_neg (not_lt.mpr hbits')] at hv
  cases hsigned : t.signed with
  | true =>
    simp only [hsigned, if_true] at hs hv
    obtain ⟨hlow, hhigh⟩ := IntType.bounds_of_signed hx hsigned hbits
    obtain rfl := Option.some.inj hv
    have hvalue : (Int64.ofInt x).toInt = x := by simpa [Value.integer?] using hinteger
    refine keeps_of_static (ne_dynamic_of_kind hs (by decide)) (htakes (Or.inl hs)) ?_
    refine (normal?_signedInt_iff hs hinteger).mpr ?_
    rw [hvalue]
    exact ⟨hlow, hhigh, Int.ModEq.refl x⟩
  | false =>
    simp only [hsigned, Bool.false_eq_true, if_false] at hs hv
    obtain ⟨hlow, hhigh⟩ := IntType.bounds_of_unsigned hx hsigned hbits
    obtain rfl := Option.some.inj hv
    have hvalue : ((UInt64.ofNat x.toNat).toNat : ℤ) = x := by
      simpa [Value.integer?] using hinteger
    refine keeps_of_static (ne_dynamic_of_kind hs (by decide)) (htakes (Or.inr hs)) ?_
    refine (normal?_unsignedInt_iff hs hinteger).mpr ?_
    rw [hvalue, Int.emod_eq_of_lt hlow hhigh]

/-- A binary32 field keeps a number that was one, and a binary64 field keeps all. -/
lemma keeps_float32 {x : Binary32} (hs : s.tag.kind = .float32) (hnan : x.isNaN = false) :
    s.Keeps (.float (.widen x)) 0 := by
  refine keeps_of_static (ne_dynamic_of_kind hs (by decide)) ?_ ?_
  · simp only [payload, hs, numberOf, Value.number?]
    exact ⟨_, rfl⟩
  · simp only [normal?, hs, Value.number?, Option.map_some, Binary64.narrow_widen,
      Binary32.quiet_of_not_isNaN hnan]

lemma keeps_float64 {x : Binary64} (hs : s.tag.kind = .float64) : s.Keeps (.float x) 0 := by
  refine keeps_of_static (ne_dynamic_of_kind hs (by decide)) ?_ ?_
  · simp only [payload, hs, numberOf, Value.number?]
    exact ⟨_, rfl⟩
  · simp only [normal?, hs, Value.number?, Option.map_some]

lemma keeps_bool {b : Bool} (hs : s.tag.kind = .bool) : s.Keeps (.bool b) 0 := by
  refine keeps_of_static (ne_dynamic_of_kind hs (by decide)) ?_ ?_
  · simp only [payload, hs]
    exact ⟨_, rfl⟩
  · simp only [normal?, hs, Value.isTruthy]

lemma keeps_char {c : Char} (hs : s.tag.kind = .char) (hc : c.toNat < 128) :
    s.Keeps (.ofText (String.singleton c)) 0 := by
  have hbyte : ∃ b, Text.encode (String.singleton c) = [b] := by
    have hle : c.toNat ≤ 127 := Nat.le_of_lt_succ hc
    simp [Text.encode, String.utf8EncodeChar, hle]
  obtain ⟨b, hbyte⟩ := hbyte
  refine keeps_of_static (ne_dynamic_of_kind hs (by decide)) ⟨[b], ?_⟩ ?_
  · simp only [payload, hs, Value.ofText, Value.bytes?, hbyte]
  · simp only [normal?, hs, Value.ofText, Value.bytes?, Option.map_some]

lemma keeps_bytes {bs : List UInt8} (hs : s.tag.kind = .fixedBytes) (hlength : bs.length = s.count) :
    s.Keeps (.bytes bs) 0 := by
  refine keeps_of_static (ne_dynamic_of_kind hs (by decide)) ?_ ?_
  · simp only [payload, hs, bytesOf, Value.bytes?]
    exact ⟨_, rfl⟩
  · simp only [normal?, hs, Value.bytes?, Option.map_some, ← hlength, zeroFilled_length]

lemma keeps_pascal {bs : List UInt8} (hs : s.tag.kind = .pascalString)
    (hlength : bs.length ≤ min (s.count - 1) maxStringLength) : s.Keeps (.bytes bs) 0 := by
  refine keeps_of_static (ne_dynamic_of_kind hs (by decide)) ?_ ?_
  · simp only [payload, hs, bytesOf, Value.bytes?]
    exact ⟨_, rfl⟩
  · simp only [normal?, hs, Value.bytes?, Option.map_some, List.take_of_length_le hlength]

lemma keeps_dynamic {bs : List UInt8} (hs : s.tag = .dynamic)
    (hlength : bs.length ≤ maxStringLength) : s.Keeps (.bytes bs) (bs.length + 1) := by
  have hkind := Tag.eq_dynamic_iff.mp hs
  have hdynamic : s.dynamicLength .standard bs = .ok bs.length := if_pos hlength
  refine ⟨?_, ?_, fun _ => ⟨bs, rfl, Or.inl hlength⟩, ?_⟩
  · simp only [payload, hkind, bytesOf, Value.bytes?, hdynamic]
    exact ⟨_, rfl⟩
  · simp only [normal?, hkind, Value.bytes?, Option.map_some, List.take_of_length_le hlength]
  · rw [stringSize_of_dynamic hs, min_eq_left hlength]

end Slot

namespace FieldType

variable {type : FieldType}

/-- The size of an integer field is its width. -/
lemma Carries.size_eq_width {t : IntType} (h : type.Carries (.leaf (.int t))) :
    type.size = type.field.tag.width := by
  have hkind : type.field.tag.kind = .signedInt ∨ type.field.tag.kind = .unsignedInt := by
    rw [h.1]
    cases t.signed <;> simp
  cases type <;> first | rfl | simp [field, Tag.kind] at hkind

/-- **A field keeps the value of a leaf that its type carries**, if the datum has place in it. -/
theorem keeps {s : Slot} (hs : s.field = type.field) {leaf : Shape} (hcarries : type.Carries leaf)
    {d : Datum} (hd : leaf.Holds d) (hfits : type.Fits d)
    (hnan : ∀ y, d = .scalar (.float32 y) → y.isNaN = false) {v : Value} (hv : d.value? = some v) :
    s.Keeps v (type.dynamicSize d) := by
  have htag : s.tag = type.field.tag := congrArg Field.tag hs
  have hcount : s.count = type.field.count := congrArg Field.count hs
  cases hd <;> try exact hcarries.elim
  case leaf l hd =>
    cases hd <;> try exact hcarries.elim
    case bool b =>
      obtain rfl : type = .bool := hcarries
      obtain rfl := Option.some.inj hv
      exact Slot.keeps_bool (by rw [htag]; rfl)
    case int t x hx =>
      have hwidth : type.size = s.tag.width := htag ▸ hcarries.size_eq_width
      obtain ⟨hkind, hbits⟩ := hcarries
      rw [Datum.value?_int] at hv
      exact Slot.keeps_int (by rw [htag, hkind]) (hwidth ▸ hbits) hx hv
    case float32 y =>
      obtain rfl := Option.some.inj hv
      rcases hcarries with rfl | rfl
      · exact Slot.keeps_float32 (by rw [htag]; rfl) (hnan y rfl)
      · exact Slot.keeps_float64 (by rw [htag]; rfl)
    case float64 y =>
      obtain rfl : type = .float64 := hcarries
      obtain rfl := Option.some.inj hv
      exact Slot.keeps_float64 (by rw [htag]; rfl)
    case char c =>
      obtain rfl : type = .char := hcarries
      obtain rfl := Option.some.inj hv
      exact Slot.keeps_char (by rw [htag]; rfl) hfits
    case text expectation text =>
      obtain rfl := Option.some.inj hv
      rcases hcarries with rfl | ⟨n, rfl⟩ | ⟨n, rfl⟩
      · exact Slot.keeps_dynamic htag hfits
      · exact Slot.keeps_pascal (by rw [htag]; rfl) (by rw [hcount]; exact hfits)
      · exact Slot.keeps_bytes (by rw [htag]; rfl) (by rw [hcount]; exact hfits)

/-- What a type carries is a flat leaf. -/
lemma Carries.flatLeaf {leaf : Shape} (h : type.Carries leaf) : leaf.FlatLeaf := by
  cases leaf <;> try exact h.elim
  case leaf l =>
    cases l <;> try exact h.elim
    case int t =>
      have hwidth := h.size_eq_width
      have hle := type.field.tag.width_le
      have hbits : t.bits ≤ 8 * type.size := h.2
      change t.bits ≤ 64
      omega
    all_goals trivial

lemma flatLeaf_of_carries {types : List FieldType} {leaves : List Shape}
    (h : List.Forall₂ Carries types leaves) : ∀ leaf ∈ leaves, leaf.FlatLeaf := by
  induction h with
  | nil => simp
  | cons hcarry _ ih => exact List.forall_mem_cons.mpr ⟨hcarry.flatLeaf, ih⟩

end FieldType

/-! ## All fields -/

/-- Fields keep values, one each, and need `moved` bytes besides the static region for them. -/
structure KeepsAll (slots : List Slot) (values : List Value) (moved : ℕ) : Prop where
  length : values.length = slots.length
  takes : Policy.standard.Takes (slots.zip values)
  normal : List.zipWith Slot.normal? slots values = values.map some
  whole : ∀ f ∈ slots.zip values, Policy.standard.Keeps f
  stringBytes : stringBytes (slots.zip values) = moved

lemma KeepsAll.cons {s : Slot} {v : Value} {slots : List Slot} {values : List Value} {m n : ℕ}
    (h : s.Keeps v m) (hall : KeepsAll slots values n) :
    KeepsAll (s :: slots) (v :: values) (m + n) where
  length := congrArg (· + 1) hall.length
  takes := by
    intro field hfield
    rcases List.mem_cons.mp hfield with rfl | hfield
    · exact h.takes
    · exact hall.takes field hfield
  normal := by rw [List.zipWith_cons_cons, h.normal, hall.normal, List.map_cons]
  whole := List.forall_mem_cons.mpr ⟨h.whole, hall.whole⟩
  stringBytes := by rw [List.zip_cons_cons, stringBytes_cons, h.stringSize, hall.stringBytes]

/-- **The fields of a declaration keep the values of a datum**, by induction on the types. -/
theorem keepsAll_of_carries {types : List FieldType} {leaves : List Shape} {slots : List Slot}
    {data : List Datum} {values : List Value}
    (hcarries : List.Forall₂ FieldType.Carries types leaves)
    (hslots : slots.map Slot.field = types.map FieldType.field)
    (hdata : List.Forall₂ Shape.Holds leaves data)
    (hfits : List.Forall₂ FieldType.Fits types data)
    (hnan : ∀ y, .scalar (.float32 y) ∈ data → y.isNaN = false) (hvalues : Gives data values) :
    KeepsAll slots values (List.zipWith FieldType.dynamicSize types data).sum := by
  induction hcarries generalizing slots data values with
  | nil =>
    obtain rfl := List.forall₂_nil_left_iff.mp hdata
    obtain rfl := List.forall₂_nil_left_iff.mp hvalues
    obtain rfl := List.map_eq_nil_iff.mp hslots
    exact ⟨rfl, by simp [Policy.Takes], rfl, by simp, rfl⟩
  | @cons type leaf types leaves hcarry _ ih =>
    obtain ⟨d, data, hd, hrest, rfl⟩ := List.forall₂_cons_left_iff.mp hdata
    obtain ⟨v, values, hv, hgives, rfl⟩ := List.forall₂_cons_left_iff.mp hvalues
    obtain ⟨hfit, hfits⟩ := List.forall₂_cons.mp hfits
    obtain ⟨s, slots, rfl, hs, hslots⟩ := List.map_eq_cons_iff.mp hslots
    rw [List.zipWith_cons_cons, List.sum_cons]
    have hkeeps := FieldType.keeps hs hcarry hd hfit
      (fun y hy => hnan y (hy ▸ List.mem_cons_self)) hv
    exact KeepsAll.cons hkeeps
      (ih hslots hrest hfits (fun y hy => hnan y (List.mem_cons_of_mem d hy)) hgives)

/-- **Values that all fields of a layout keep are packed and unpacked as they are**, in as many bytes
as the static region and the strings take; unless these are too many for a size. -/
theorem Layout.pack_of_keepsAll {l : Layout} (hl : l.WellFormed) {values : List Value} {moved : ℕ}
    (h : KeepsAll l.carriers values moved) :
    (l.size + moved ≤ maxSize → ∃ bytes, l.pack values = .ok bytes ∧
        bytes.size = l.size + moved ∧ l.unpack bytes = .ok values) ∧
      (maxSize < l.size + moved → l.pack values = .error .sizeOverflow) := by
  have harity : values.length = l.arity := by
    rw [h.length, hl.arity_eq, carriers]
  have htold (n : ℕ) :
      l.packedSizeWith .standard values = .ok n ↔ n = l.size + moved ∧ n ≤ maxSize := by
    rw [packedSizeWith_eq_ok_iff hl, assign, h.stringBytes]
    exact ⟨fun hn => hn.2.2, fun hn => ⟨harity, h.whole, hn⟩⟩
  obtain ⟨pieces, henc⟩ := exists_encodes_of_takes hl harity h.takes
  have hsize := packedSizeWith_of_encodes hl henc h.takes
  have hpack := packWith_of_encodes hl henc h.takes
  by_cases hle : pieces.flatten.length ≤ maxSize
  · rw [if_pos hle] at hsize hpack
    obtain ⟨hlength, -⟩ := (htold _).mp hsize
    refine ⟨?_, fun hover => absurd hle (not_le.mpr (hlength ▸ hover))⟩
    intro _
    obtain ⟨record, hunpack, hnormal⟩ := exists_unpack_of_packWith hl hpack
    rw [h.normal] at hnormal
    obtain rfl := List.map_injective_iff.mpr (Option.some_injective Value) hnormal
    exact ⟨_, hpack, by simpa using hlength, hunpack⟩
  · rw [if_neg hle] at hsize hpack
    refine ⟨?_, fun _ => hpack⟩
    intro hfits
    rw [(htold _).mpr ⟨rfl, hfits⟩] at hsize
    cases hsize

/-! ## Records -/

namespace Record

variable {room : Room} {name : String} {parts : List Part} {r : Record}

/-- What a declaration has come through when there is a record of it. -/
lemma of_build (hr : buildWithin room name parts = .ok r) :
    r.fieldNames = parts.filterMap Part.name? ∧
      firstRepeated? [] (parts.filterMap Part.name?) = none ∧
      Layout.compileWithin room (String.join (parts.map Part.format)) = .ok r.layout := by
  unfold buildWithin at hr
  cases hrepeated : firstRepeated? [] (parts.filterMap Part.name?) with
  | some repeated => simp [hrepeated] at hr
  | none =>
    cases hcompile : Layout.compileWithin room (String.join (parts.map Part.format)) with
    | error fault => simp [hrepeated, hcompile] at hr
    | ok layout =>
      simp only [hrepeated, hcompile, Except.ok.injEq] at hr
      rw [← hr]
      exact ⟨rfl, rfl, rfl⟩

lemma compile_of_build (hr : buildWithin room name parts = .ok r) :
    Layout.compileWithin room (String.join (parts.map Part.format)) = .ok r.layout :=
  (of_build hr).2.2

/-- The slots with values have the fields of the declared types, in order. -/
lemma map_field_carriers_of_build (hr : buildWithin room name parts = .ok r)
    (hsizes : ∀ part ∈ parts, part.size ≤ maxSize) :
    r.layout.carriers.map Slot.field = (parts.filterMap Part.type?).map FieldType.field ∧
      r.layout.size = (parts.map Part.size).sum := by
  obtain ⟨-, hlayout⟩ := Layout.eq_of_compile_declaration hsizes (compile_of_build hr)
  rw [hlayout]
  refine ⟨?_, total_declared parts⟩
  rw [map_field_carriers, filter_declared]

/-- A cache for the room of a record answers for its format as the record does. -/
lemma datum_of_run (hr : buildWithin room name parts = .ok r) (capacity : ℕ)
    (calls : List CacheCall) (x : Datum) (s : Shape) (buffer : Array UInt8) :
    let c := (LayoutCache.within room capacity).run calls
    (c.packDatum r.layout.format x).1 = r.packDatum x ∧
      (c.unpackDatum r.layout.format s buffer).1 = r.unpackDatum s buffer := by
  intro c
  have hsound : c.Sound := LayoutCache.sound_run (LayoutCache.sound_within room capacity) calls
  have hroom : c.room = room := LayoutCache.room_run (LayoutCache.within room capacity) calls
  have hcompile := compile_of_build hr
  apply hsound.datum_eq_record
  rw [hroom, Layout.format_of_compile hcompile]
  exact hcompile

/-- **A datum goes through a record and back.**  Let a record be built in any room, let its types
carry the leaves of the shape, one each and in order, and let the datum have place in them, with no
option in it absent and no binary32 number a NaN.  The static region and the dynamic strings have a
length together.  If it is a size, the record packs the datum in so many bytes and unpacks it again
as it was, and so does its format by itself, with the same bytes, whatever uses a cache for that
room has had before.  If it is too much for a size, both refuse to pack the datum for this reason. -/
theorem unpackDatum_packDatum (hr : buildWithin room name parts = .ok r)
    (hsizes : ∀ part ∈ parts, part.size ≤ maxSize) {s : Shape} {x : Datum} (hx : s.Holds x)
    (hpresent : .absent ∉ x.leaves)
    (hnan : ∀ y, .scalar (.float32 y) ∈ x.leaves → y.isNaN = false)
    (hcarries : List.Forall₂ FieldType.Carries (parts.filterMap Part.type?) s.leaves)
    (hfits : List.Forall₂ FieldType.Fits (parts.filterMap Part.type?) x.leaves) :
    let length := (parts.map Part.size).sum +
      (List.zipWith FieldType.dynamicSize (parts.filterMap Part.type?) x.leaves).sum
    (length ≤ maxSize → ∃ bytes, r.packDatum x = .ok bytes ∧ bytes.size = length ∧
        r.unpackDatum s bytes = .ok x ∧ ∀ capacity calls,
          (((LayoutCache.within room capacity).run calls).packDatum r.layout.format x).1 =
              .ok bytes ∧
            (((LayoutCache.within room capacity).run calls).unpackDatum r.layout.format s bytes).1 =
              .ok x) ∧
      (maxSize < length → r.packDatum x = .error (.pack .sizeOverflow) ∧ ∀ capacity calls,
        (((LayoutCache.within room capacity).run calls).packDatum r.layout.format x).1 =
          .error (.pack .sizeOverflow)) := by
  intro length
  have hflat : s.Flat := FieldType.flatLeaf_of_carries hcarries
  obtain ⟨values, hgives, -, hrebuild⟩ := hx.exists_gives hflat hpresent hnan
  obtain ⟨data, hdata, hleaves, -⟩ := hx.exists_leaves hpresent
  rw [Shape.flatMap_leaves_of_flat hdata hflat] at hleaves
  subst hleaves
  obtain ⟨hslots, hsize⟩ := map_field_carriers_of_build hr hsizes
  have hkeeps := keepsAll_of_carries hcarries hslots hdata hfits hnan hgives
  obtain ⟨hround, hover⟩ :=
    Layout.pack_of_keepsAll (Layout.wellFormed_of_compile (compile_of_build hr)) hkeeps
  rw [hsize] at hround hover
  have hpacked : r.packDatum x = (r.layout.pack values).mapError .pack := by
    rw [packDatum, hgives.flatten_eq]
    rfl
  constructor
  · intro hle
    obtain ⟨bytes, hpack, hbytes, hunpack⟩ := hround hle
    rw [hpack] at hpacked
    have hexact := hrebuild []
    rw [List.append_nil] at hexact
    have hunpacked : r.unpackDatum s bytes = .ok x := by
      simp only [unpackDatum, unpack, hunpack, Except.mapError, Shape.ofValues_of_rebuild hexact]
    refine ⟨bytes, hpacked, hbytes, hunpacked, ?_⟩
    intro capacity calls
    obtain ⟨hpackCached, hunpackCached⟩ := datum_of_run hr capacity calls x s bytes
    exact ⟨hpackCached.trans hpacked, hunpackCached.trans hunpacked⟩
  · intro hmore
    rw [hover hmore] at hpacked
    refine ⟨hpacked, ?_⟩
    intro capacity calls
    exact (datum_of_run hr capacity calls x s #[]).1.trans hpacked

/-- A record with a gap, whose name moves the fields behind it. -/
theorem unpackDatum_packDatum_moved :
    ∃ r bytes, build "Sample" [.field "id" .uint16, .pad 2, .field "name" .dynamic,
        .field "tag" .char, .field "ratio" .float32] = .ok r ∧
      r.packDatum (.record "Sample" [("id", .wrapper "Id" (.scalar (.int .byte 9))),
          ("name", .present (.scalar (.text "é"))),
          ("rest", .tuple [.scalar (.char 'x'), .scalar (.float32 ⟨0x3f000000⟩)])]) = .ok bytes ∧
      r.unpackDatum (.record "Sample" [("id", .wrapper "Id" (.leaf (.int .byte))),
          ("name", .option (.leaf (.text "a string"))),
          ("rest", .tuple [.leaf .char, .leaf .float32])]) bytes =
        .ok (.record "Sample" [("id", .wrapper "Id" (.scalar (.int .byte 9))),
          ("name", .present (.scalar (.text "é"))),
          ("rest", .tuple [.scalar (.char 'x'), .scalar (.float32 ⟨0x3f000000⟩)])]) := by
  have hholds : (Shape.record "Sample" [("id", .wrapper "Id" (.leaf (.int .byte))),
      ("name", .option (.leaf (.text "a string"))),
      ("rest", .tuple [.leaf .char, .leaf .float32])]).Holds
      (.record "Sample" [("id", .wrapper "Id" (.scalar (.int .byte 9))),
        ("name", .present (.scalar (.text "é"))),
        ("rest", .tuple [.scalar (.char 'x'), .scalar (.float32 ⟨0x3f000000⟩)])]) :=
    .record rfl (.cons (.wrapper (.leaf (.int (by decide)))) (.cons (.present (.leaf .text))
      (.cons (.tuple (.cons (.leaf .char) (.cons (.leaf .float32) .nil))) .nil)))
  obtain ⟨r, hr⟩ : ∃ r, build "Sample" [.field "id" .uint16, .pad 2, .field "name" .dynamic,
      .field "tag" .char, .field "ratio" .float32] = .ok r := ⟨_, rfl⟩
  obtain ⟨hround, -⟩ := unpackDatum_packDatum hr (by decide) hholds
    (by simp [Datum.leaves, Datum.leavesOfFields, Datum.leavesOfAll])
    (by simp [Datum.leaves, Datum.leavesOfFields, Datum.leavesOfAll]; decide)
    (.cons ⟨rfl, by decide⟩ (.cons (Or.inl rfl) (.cons rfl (.cons (Or.inl rfl) .nil))))
    (.cons trivial (.cons (by decide : (Text.encode "é").length ≤ maxStringLength)
      (.cons (by decide : 'x'.toNat < 128) (.cons trivial .nil))))
  obtain ⟨bytes, hpack, -, hunpack, -⟩ := hround (by decide)
  exact ⟨r, bytes, hr, hpack, hunpack⟩

/-- A text of no bytes in a dynamic string behind the largest pad: the static region is a size, and
the length byte of the string is one byte too many. -/
theorem packDatum_overflow :
    ∃ r, build "R" [.pad maxSize, .field "s" .dynamic] = .ok r ∧
      (Shape.record "T" [("s", .leaf (.text "a string"))]).Holds
        (.record "T" [("s", .scalar (.text ""))]) ∧
      (.absent ∉ (Datum.record "T" [("s", .scalar (.text ""))]).leaves) ∧
      (∀ y, .scalar (.float32 y) ∉ (Datum.record "T" [("s", .scalar (.text ""))]).leaves) ∧
      List.Forall₂ FieldType.Carries [.dynamic]
        (Shape.record "T" [("s", .leaf (.text "a string"))]).leaves ∧
      List.Forall₂ FieldType.Fits [.dynamic]
        (Datum.record "T" [("s", .scalar (.text ""))]).leaves ∧
      r.packDatum (.record "T" [("s", .scalar (.text ""))]) = .error (.pack .sizeOverflow) := by
  refine ⟨_, rfl, .record rfl (.cons (.leaf .text) .nil), ?_, ?_, .cons (Or.inl rfl) .nil,
    .cons (Nat.zero_le _) .nil, rfl⟩
  · simp [Datum.leaves, Datum.leavesOfFields]
  · simp [Datum.leaves, Datum.leavesOfFields]

end Record

end PackedRecord
