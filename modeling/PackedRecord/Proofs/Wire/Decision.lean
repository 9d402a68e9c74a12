import Mathlib
import PackedRecord.Proofs.Wire.Writer

/-!
# What packing refuses

Packing may find several things wrong with a list of values, and says one of them.  Which one is
decided by the order of its checks, and that order is not the order of the fields: all dynamic
strings are judged before any other field, because their lengths have to be known before there is
a place to write to.

What can be wrong is said without the two passes.  `StringFault` and `FieldFault` list what is wrong
with one field, `FirstFault` picks the first field of a record with something wrong, and
`Layout.Decides` puts the checks in order.  The two passes find exactly these faults
(`addDynamicSizes_eq_error_iff`, `Writer.run_eq_some_iff`), each by induction on the fields.  So
packing is decided as `Layout.Decides` says, and in no other way (`Layout.packInto_eq_iff`).
-/

namespace PackedRecord

/-! ## The first fault -/

section

variable {α : Type} {P : List α → α → PackFault → Prop} {x : α} {xs : List α} {fault : PackFault}

/-- Nothing is wrong with any of the items, where `P before item fault` says what is wrong with an
item that stands behind others. -/
def Faultless (P : List α → α → PackFault → Prop) (items : List α) : Prop :=
  ∀ before item after, items = before ++ item :: after → ∀ fault, ¬ P before item fault

/-- What is wrong with the first item with which something is wrong. -/
def FirstFault (P : List α → α → PackFault → Prop) (items : List α) (fault : PackFault) : Prop :=
  ∃ before item after, items = before ++ item :: after ∧ Faultless P before ∧ P before item fault

lemma faultless_nil : Faultless P [] := by
  intro before item after h
  simp at h

lemma faultless_cons :
    Faultless P (x :: xs) ↔
      (∀ fault, ¬ P [] x fault) ∧ Faultless (fun before => P (x :: before)) xs := by
  constructor
  · intro h
    refine ⟨h [] x xs rfl, ?_⟩
    intro before item after hxs
    exact h (x :: before) item after (congrArg (x :: ·) hxs)
  · rintro ⟨hx, hxs⟩ before item after hsplit
    rcases List.cons_eq_append_iff.mp hsplit with ⟨rfl, hitem⟩ | ⟨before, rfl, htail⟩
    · obtain ⟨rfl, -⟩ := List.cons.inj hitem
      exact hx
    · exact hxs before item after htail

lemma firstFault_nil : ¬ FirstFault P [] fault := by
  rintro ⟨before, item, after, h, -⟩
  simp at h

/-- The first fault is at the first item, or there is none there and it is the first of the rest. -/
lemma firstFault_cons :
    FirstFault P (x :: xs) fault ↔
      P [] x fault ∨
        (∀ other, ¬ P [] x other) ∧ FirstFault (fun before => P (x :: before)) xs fault := by
  constructor
  · rintro ⟨before, item, after, hsplit, hbefore, hfault⟩
    rcases List.cons_eq_append_iff.mp hsplit with ⟨rfl, hitem⟩ | ⟨before, rfl, htail⟩
    · obtain ⟨rfl, -⟩ := List.cons.inj hitem
      exact Or.inl hfault
    · obtain ⟨hx, hbefore⟩ := faultless_cons.mp hbefore
      exact Or.inr ⟨hx, before, item, after, htail, hbefore, hfault⟩
  · rintro (hfault | ⟨hx, before, item, after, rfl, hbefore, hfault⟩)
    · exact ⟨[], x, xs, rfl, faultless_nil, hfault⟩
    · exact ⟨x :: before, item, after, rfl, faultless_cons.mpr ⟨hx, hbefore⟩, hfault⟩

/-- Where there is a fault, there is a first one. -/
lemma faultless_iff : Faultless P xs ↔ ∀ fault, ¬ FirstFault P xs fault := by
  induction xs generalizing P with
  | nil => exact ⟨fun _ _ => firstFault_nil, fun _ => faultless_nil⟩
  | cons x xs ih =>
    rw [faultless_cons, ih]
    constructor
    · rintro ⟨hx, hxs⟩ fault hfault
      rcases firstFault_cons.mp hfault with hfirst | ⟨-, hrest⟩
      · exact hx fault hfirst
      · exact hxs fault hrest
    · intro h
      have hx : ∀ fault, ¬ P [] x fault := by
        intro fault hfault
        exact h fault (firstFault_cons.mpr (Or.inl hfault))
      refine ⟨hx, ?_⟩
      intro fault hfault
      exact h fault (firstFault_cons.mpr (Or.inr ⟨hx, hfault⟩))

variable {Q : List α → α → PackFault → Prop}

/-- What matters of a fault is what it is for the items of the list, each where it stands. -/
lemma faultless_congr
    (h : ∀ before item after, xs = before ++ item :: after →
      ∀ fault, P before item fault ↔ Q before item fault) :
    Faultless P xs ↔ Faultless Q xs := by
  constructor
  · intro hP before item after hsplit fault hfault
    exact hP before item after hsplit fault ((h before item after hsplit fault).mpr hfault)
  · intro hQ before item after hsplit fault hfault
    exact hQ before item after hsplit fault ((h before item after hsplit fault).mp hfault)

lemma firstFault_congr
    (h : ∀ before item after, xs = before ++ item :: after →
      ∀ fault, P before item fault ↔ Q before item fault) :
    FirstFault P xs fault ↔ FirstFault Q xs fault := by
  have hfront {before item after} (hsplit : xs = before ++ item :: after) :
      Faultless P before ↔ Faultless Q before := by
    apply faultless_congr
    intro earlier other later hbefore
    apply h earlier other (later ++ item :: after)
    rw [hsplit, hbefore, List.append_assoc, List.cons_append]
  constructor
  · rintro ⟨before, item, after, hsplit, hbefore, hfault⟩
    exact ⟨before, item, after, hsplit, (hfront hsplit).mp hbefore,
      (h before item after hsplit fault).mp hfault⟩
  · rintro ⟨before, item, after, hsplit, hbefore, hfault⟩
    exact ⟨before, item, after, hsplit, (hfront hsplit).mpr hbefore,
      (h before item after hsplit fault).mpr hfault⟩

/-- A condition that has nothing to do with the items can be asked for in advance. -/
lemma firstFault_and {c : Prop} :
    FirstFault (fun before item fault => c ∧ P before item fault) xs fault ↔
      c ∧ FirstFault P xs fault := by
  by_cases hc : c
  · simp only [hc, true_and]
  · simp [hc, FirstFault]

lemma faultless_and {c : Prop} :
    Faultless (fun before item fault => c ∧ P before item fault) xs ↔ (c → Faultless P xs) := by
  by_cases hc : c
  · simp only [hc, true_and, true_imp_iff]
  · simp [hc, Faultless]

end

/-! ## What is wrong with a field -/

/-- Bytes that a value takes in a dynamic string, with the length byte; in any other field it takes
none besides the static region. -/
def Slot.stringSize (s : Slot) (v : Value) : ℕ :=
  match s.tag, v with
  | .dynamic, .bytes bs => min bs.length maxStringLength + 1
  | _, _ => 0

/-- Bytes of a record besides the static region. -/
def stringBytes (fields : List (Slot × Value)) : ℕ :=
  (fields.map fun f => f.1.stringSize f.2).sum

/-- A dynamic string is longer than its length byte can say. -/
inductive LongString : Slot × Value → PackFault → Prop
  | intro {s : Slot} {bs : List UInt8} (hs : s.tag = .dynamic)
      (hlong : maxStringLength < bs.length) :
      LongString (s, .bytes bs) (.stringTooLong s.tag bs.length maxStringLength)

/-- What is wrong with a dynamic string, where the record has `running` bytes without it and the
strings after it. -/
inductive StringFault (policy : Policy) (running : ℕ) : Slot × Value → PackFault → Prop
  | notBytes {s : Slot} {v : Value} (hs : s.tag = .dynamic) (hv : v.isBytes = false) :
      StringFault policy running (s, v) (.typeMismatch s.tag v.kind)
  | tooLong {f : Slot × Value} {fault : PackFault} (hpolicy : policy.longStrings = .reject)
      (hlong : LongString f fault) : StringFault policy running f fault
  | tooMuch {s : Slot} {bs : List UInt8} (hs : s.tag = .dynamic)
      (hkept : bs.length ≤ maxStringLength ∨ policy.longStrings = .truncate)
      (hover : maxSize < running + s.stringSize (.bytes bs)) :
      StringFault policy running (s, .bytes bs) .sizeOverflow

/-- An integer is outside the range of its field: that of the two's complement in a signed field,
and of the digits in an unsigned one. -/
inductive OutsideRange : Slot × Value → PackFault → Prop
  | signed {s : Slot} {v : Value} {x : ℤ} (hs : s.tag.kind = .signedInt) (hx : v.integer? = some x)
      (hout : x < -2 ^ (8 * s.tag.width - 1) ∨ 2 ^ (8 * s.tag.width - 1) - 1 < x) :
      OutsideRange (s, v) (.outOfRange s.tag x (-2 ^ (8 * s.tag.width - 1))
        (2 ^ (8 * s.tag.width - 1) - 1))
  | unsigned {s : Slot} {v : Value} {x : ℤ} (hs : s.tag.kind = .unsignedInt)
      (hx : v.integer? = some x) (hout : x < 0 ∨ 2 ^ (8 * s.tag.width) - 1 < x) :
      OutsideRange (s, v) (.outOfRange s.tag x 0 (2 ^ (8 * s.tag.width) - 1))

/-- What is wrong with a field that is no dynamic string. -/
inductive FieldFault (policy : Policy) : Slot × Value → PackFault → Prop
  | notInteger {s : Slot} {v : Value} (hs : s.tag.kind = .signedInt ∨ s.tag.kind = .unsignedInt)
      (hv : v.isInteger = false) : FieldFault policy (s, v) (.typeMismatch s.tag v.kind)
  | notNumber {s : Slot} {v : Value} (hs : s.tag.kind = .float32 ∨ s.tag.kind = .float64)
      (hv : v.kind = .bool ∨ v.kind = .bytes) :
      FieldFault policy (s, v) (.typeMismatch s.tag v.kind)
  | notOneByte {s : Slot} {v : Value} (hs : s.tag.kind = .char) (hv : ∀ b, v ≠ .bytes [b]) :
      FieldFault policy (s, v) (.typeMismatch s.tag v.kind)
  | notBytes {s : Slot} {v : Value} (hs : s.tag.kind = .fixedBytes ∨ s.tag.kind = .pascalString)
      (hv : v.isBytes = false) : FieldFault policy (s, v) (.typeMismatch s.tag v.kind)
  | outside {f : Slot × Value} {fault : PackFault} (hpolicy : policy.overflow = .strict)
      (hout : OutsideRange f fault) : FieldFault policy f fault

/-! ## The order of the checks -/

/-- **How packing is decided**, where `used` bytes are in the buffer already.  First the number of
values is checked; then the dynamic strings in order, each with the size of the record up to it;
then the size of the buffer with the record; and then the other fields in order.  If nothing is
found wrong, the record has its static region and its strings. -/
inductive Layout.Decides (l : Layout) (policy : Policy) (used : ℕ) (values : List Value) :
    Except PackFault ℕ → Prop
  | arity (harity : values.length ≠ l.arity) :
      Decides l policy used values (.error (.arityMismatch l.arity values.length))
  | string {fault : PackFault} (harity : values.length = l.arity)
      (hfault : FirstFault (fun before => StringFault policy (l.size + stringBytes before))
        (l.assign values) fault) :
      Decides l policy used values (.error fault)
  | full (harity : values.length = l.arity)
      (hstrings : Faultless (fun before => StringFault policy (l.size + stringBytes before))
        (l.assign values))
      (hfull : maxSize < used + (l.size + stringBytes (l.assign values))) :
      Decides l policy used values (.error .sizeOverflow)
  | field {fault : PackFault} (harity : values.length = l.arity)
      (hstrings : Faultless (fun before => StringFault policy (l.size + stringBytes before))
        (l.assign values))
      (hfits : used + (l.size + stringBytes (l.assign values)) ≤ maxSize)
      (hfault : FirstFault (fun _ => FieldFault policy) (l.assign values) fault) :
      Decides l policy used values (.error fault)
  | taken (harity : values.length = l.arity)
      (hstrings : Faultless (fun before => StringFault policy (l.size + stringBytes before))
        (l.assign values))
      (hfits : used + (l.size + stringBytes (l.assign values)) ≤ maxSize)
      (hfields : Faultless (fun _ => FieldFault policy) (l.assign values)) :
      Decides l policy used values (.ok (l.size + stringBytes (l.assign values)))

/-! ## The first pass finds the faults of the strings -/

@[simp] lemma stringBytes_nil : stringBytes [] = 0 := rfl

@[simp] lemma stringBytes_cons (s : Slot) (v : Value) (fields : List (Slot × Value)) :
    stringBytes ((s, v) :: fields) = s.stringSize v + stringBytes fields := by
  simp [stringBytes]

namespace Slot

variable {s : Slot} {policy : Policy}

lemma stringSize_of_not_dynamic (hs : s.tag ≠ .dynamic) (v : Value) : s.stringSize v = 0 := by
  unfold stringSize
  split
  · contradiction
  · rfl

lemma stringSize_of_dynamic (hs : s.tag = .dynamic) (bs : List UInt8) :
    s.stringSize (.bytes bs) = min bs.length maxStringLength + 1 := by
  simp only [stringSize, hs]

/-- A string is taken if it is not too long, or cut. -/
lemma dynamicLength_of_kept {bs : List UInt8}
    (hkept : bs.length ≤ maxStringLength ∨ policy.longStrings = .truncate) :
    s.dynamicLength policy bs = .ok (min bs.length maxStringLength) := by
  unfold dynamicLength
  by_cases hle : bs.length ≤ maxStringLength
  · rw [if_pos hle, min_eq_left hle]
  · rw [if_neg hle, hkept.resolve_left hle, min_eq_right (not_le.mp hle).le]

lemma dynamicLength_of_refused {bs : List UInt8} (hlong : maxStringLength < bs.length)
    (hpolicy : policy.longStrings = .reject) :
    s.dynamicLength policy bs = .error (.stringTooLong s.tag bs.length maxStringLength) := by
  rw [dynamicLength, if_neg (not_le.mpr hlong), hpolicy]

lemma bytesOf_bytes (s : Slot) (bs : List UInt8) : s.bytesOf (.bytes bs) = .ok bs := rfl

lemma bytesOf_of_not_bytes {v : Value} (hv : v.isBytes = false) :
    s.bytesOf v = .error (.typeMismatch s.tag v.kind) := by
  cases v with
  | bytes bs => cases hv
  | int | uint | float | bool => rfl

end Slot

/-- A policy that keeps a string has no string that is too long for it. -/
lemma LongString.not_kept {policy : Policy} {s : Slot} {bs : List UInt8} {fault : PackFault}
    (h : LongString (s, .bytes bs) fault) (hpolicy : policy.longStrings = .reject) :
    ¬ (bs.length ≤ maxStringLength ∨ policy.longStrings = .truncate) := by
  cases h with
  | intro _ hlong =>
    rintro (hle | htruncate)
    · omega
    · rw [hpolicy] at htruncate
      cases htruncate

namespace StringFault

variable {policy : Policy} {running : ℕ} {f : Slot × Value} {fault other : PackFault}

lemma dynamic (h : StringFault policy running f fault) : f.1.tag = .dynamic := by
  cases h with
  | notBytes hs _ | tooMuch hs _ _ => exact hs
  | tooLong _ hlong =>
    cases hlong with
    | intro hs _ => exact hs

/-- One thing at most is wrong with a string. -/
lemma unique (h : StringFault policy running f fault) (h' : StringFault policy running f other) :
    fault = other := by
  cases h with
  | notBytes _ hv =>
    cases h' with
    | notBytes _ _ => rfl
    | tooLong _ hlong =>
      cases hlong
      cases hv
    | tooMuch _ _ _ => cases hv
  | tooLong hpolicy hlong =>
    cases h' with
    | notBytes _ hv =>
      cases hlong
      cases hv
    | tooLong _ hlong' =>
      cases hlong
      cases hlong'
      rfl
    | tooMuch _ hkept _ => exact absurd hkept (hlong.not_kept hpolicy)
  | tooMuch _ hkept _ =>
    cases h' with
    | notBytes _ hv => cases hv
    | tooLong hpolicy hlong => exact absurd hkept (hlong.not_kept hpolicy)
    | tooMuch _ _ _ => rfl

end StringFault

/-- Where nothing is wrong with a dynamic string, it is one that the policy keeps, and the record
has a size with it. -/
lemma exists_kept_of_no_stringFault {policy : Policy} {running : ℕ} {s : Slot} {v : Value}
    (hs : s.tag = .dynamic) (h : ∀ fault, ¬ StringFault policy running (s, v) fault) :
    ∃ bs, v = .bytes bs ∧ (bs.length ≤ maxStringLength ∨ policy.longStrings = .truncate) ∧
      running + s.stringSize (.bytes bs) ≤ maxSize := by
  cases v with
  | bytes bs =>
    have hkept : bs.length ≤ maxStringLength ∨ policy.longStrings = .truncate := by
      by_contra hrefused
      obtain ⟨hlong, hpolicy⟩ := not_or.mp hrefused
      refine h _ (.tooLong ?_ (.intro hs (not_le.mp hlong)))
      cases hp : policy.longStrings with
      | reject => rfl
      | truncate => exact absurd hp hpolicy
    refine ⟨bs, rfl, hkept, ?_⟩
    by_contra hover
    exact h _ (.tooMuch hs hkept (not_le.mp hover))
  | int | uint | float | bool => exact absurd (.notBytes hs rfl) (h _)

/-- A step of the first pass finds what is wrong with the string, or goes on with the size that the
record has with it. -/
lemma addDynamicSizes_cons_cases (policy : Policy) (running : ℕ) (s : Slot) (v : Value)
    (fields : List (Slot × Value)) :
    (∃ fault, StringFault policy running (s, v) fault ∧
        addDynamicSizes policy running ((s, v) :: fields) = .error fault) ∨
      (∀ fault, ¬ StringFault policy running (s, v) fault) ∧
        addDynamicSizes policy running ((s, v) :: fields) =
          addDynamicSizes policy (running + s.stringSize v) fields := by
  by_cases hfault : ∃ fault, StringFault policy running (s, v) fault
  · obtain ⟨fault, hfault⟩ := hfault
    refine Or.inl ⟨fault, hfault, ?_⟩
    rw [addDynamicSizes, if_pos hfault.dynamic]
    cases hfault with
    | notBytes hs hv => rw [Slot.bytesOf_of_not_bytes hv]
    | tooLong hpolicy hlong =>
      obtain @⟨_, bs, hs, hlong⟩ := hlong
      simp only [Slot.bytesOf_bytes, Slot.dynamicLength_of_refused hlong hpolicy]
    | @tooMuch _ bs hs hkept hover =>
      rw [Slot.stringSize_of_dynamic hs] at hover
      have hadd : addSize? running (min bs.length maxStringLength + 1) = none :=
        if_neg (not_le.mpr hover)
      simp only [Slot.bytesOf_bytes, Slot.dynamicLength_of_kept hkept, hadd]
  · have hnone := not_exists.mp hfault
    refine Or.inr ⟨hnone, ?_⟩
    by_cases hs : s.tag = .dynamic
    · obtain ⟨bs, rfl, hkept, hfits⟩ := exists_kept_of_no_stringFault hs hnone
      rw [Slot.stringSize_of_dynamic hs] at hfits ⊢
      have hadd := addSize?_eq_some_iff.mpr ⟨hfits, rfl⟩
      simp only [addDynamicSizes, if_pos hs, Slot.bytesOf_bytes, Slot.dynamicLength_of_kept hkept,
        hadd]
    · rw [Slot.stringSize_of_not_dynamic hs, addDynamicSizes, if_neg hs, Nat.add_zero]

/-- **The first pass finds the first fault of the strings.** -/
theorem addDynamicSizes_eq_error_iff {policy : Policy} {running : ℕ}
    {fields : List (Slot × Value)} {fault : PackFault} :
    addDynamicSizes policy running fields = .error fault ↔
      FirstFault (fun before => StringFault policy (running + stringBytes before)) fields
        fault := by
  induction fields generalizing running with
  | nil =>
    constructor
    · intro h
      cases h
    · intro h
      exact absurd h firstFault_nil
  | cons f fields ih =>
    obtain ⟨s, v⟩ := f
    rw [firstFault_cons]
    simp only [stringBytes_nil, stringBytes_cons, Nat.add_zero, ← Nat.add_assoc]
    rcases addDynamicSizes_cons_cases policy running s v fields with
      ⟨first, hfirst, hstep⟩ | ⟨hnone, hstep⟩
    · rw [hstep]
      constructor
      · intro h
        rw [← Except.error.inj h]
        exact Or.inl hfirst
      · rintro (hfault | ⟨hnone, -⟩)
        · rw [hfirst.unique hfault]
        · exact absurd hfirst (hnone first)
    · rw [hstep, ih]
      constructor
      · intro h
        exact Or.inr ⟨hnone, h⟩
      · rintro (hfault | ⟨-, h⟩)
        · exact absurd hfault (hnone fault)
        · exact h

/-- Where nothing is wrong with the strings, the first pass adds their bytes. -/
theorem addDynamicSizes_of_faultless {policy : Policy} {running : ℕ}
    {fields : List (Slot × Value)}
    (h : Faultless (fun before => StringFault policy (running + stringBytes before)) fields) :
    addDynamicSizes policy running fields = .ok (running + stringBytes fields) := by
  induction fields generalizing running with
  | nil => rfl
  | cons f fields ih =>
    obtain ⟨s, v⟩ := f
    rw [faultless_cons] at h
    simp only [stringBytes_nil, stringBytes_cons, Nat.add_zero, ← Nat.add_assoc] at h ⊢
    rcases addDynamicSizes_cons_cases policy running s v fields with
      ⟨first, hfirst, -⟩ | ⟨-, hstep⟩
    · exact absurd hfirst (h.1 first)
    · rw [hstep, ih h.2]

/-! ## The second pass finds the faults of the other fields -/

namespace Slot

variable {s : Slot} {policy : Policy} {v : Value} {fault : PackFault}

lemma integer?_of_not_isInteger (hv : v.isInteger = false) : v.integer? = none := by
  cases v with
  | int | uint => cases hv
  | float | bool | bytes => rfl

lemma numberOf_of_bool_or_bytes (hv : v.kind = .bool ∨ v.kind = .bytes) :
    s.numberOf v = .error (.typeMismatch s.tag v.kind) := by
  cases v with
  | int | uint | float => rcases hv with hv | hv <;> cases hv
  | bool | bytes => rfl

lemma integerWord_of_outside {x : ℤ} (hx : v.integer? = some x)
    (hpolicy : policy.overflow = .strict)
    (hout : x < s.tag.range.1 ∨ s.tag.range.2 < x) :
    s.integerWord policy v = .error (.outOfRange s.tag x s.tag.range.1 s.tag.range.2) := by
  simp only [integerWord, hx, if_pos (And.intro hpolicy hout)]

/-- A fault of a field is found when its bytes are made. -/
lemma payload_of_fieldFault (h : FieldFault policy (s, v) fault) :
    s.payload policy v = .error fault := by
  cases h with
  | notInteger hs hv =>
    have hword : s.integerWord policy v = .error (.typeMismatch s.tag v.kind) := by
      simp only [integerWord, integer?_of_not_isInteger hv, typeMismatch]
    rcases hs with hs | hs <;> simp only [payload, hs, hword]
  | notNumber hs hv =>
    rcases hs with hs | hs <;> simp only [payload, hs, numberOf_of_bool_or_bytes hv, Except.map]
  | notOneByte hs hv =>
    simp only [payload, hs]
    split
    · next b hb =>
      cases v with
      | bytes bs => exact absurd (congrArg Value.bytes (Option.some.inj hb)) (hv b)
      | int | uint | float | bool => cases hb
    · rfl
  | notBytes hs hv =>
    rcases hs with hs | hs <;> simp only [payload, hs, bytesOf_of_not_bytes hv, Except.map]
  | outside hpolicy hout =>
    cases hout with
    | signed hs hx hout =>
      have hrange := Tag.range_of_signed hs
      have hword := integerWord_of_outside (s := s) hx hpolicy (by rwa [hrange])
      rw [hrange] at hword
      simp only [payload, hs, hword]
    | unsigned hs hx hout =>
      have hrange := Tag.range_of_unsigned hs
      have hword := integerWord_of_outside (s := s) hx hpolicy (by rwa [hrange])
      rw [hrange] at hword
      simp only [payload, hs, hword]

lemma bytesOf_eq_error (h : s.bytesOf v = .error fault) :
    v.isBytes = false ∧ fault = .typeMismatch s.tag v.kind := by
  cases v with
  | bytes bs => cases h
  | int | uint | float | bool => exact ⟨rfl, (Except.error.inj h).symm⟩

lemma numberOf_eq_error (h : s.numberOf v = .error fault) :
    (v.kind = .bool ∨ v.kind = .bytes) ∧ fault = .typeMismatch s.tag v.kind := by
  cases v with
  | bool b => exact ⟨Or.inl rfl, (Except.error.inj h).symm⟩
  | bytes bs => exact ⟨Or.inr rfl, (Except.error.inj h).symm⟩
  | int | uint | float => cases h

lemma integerWord_eq_error (h : s.integerWord policy v = .error fault) :
    (v.isInteger = false ∧ fault = .typeMismatch s.tag v.kind) ∨
      ∃ x, v.integer? = some x ∧ policy.overflow = .strict ∧
        (x < s.tag.range.1 ∨ s.tag.range.2 < x) ∧
        fault = .outOfRange s.tag x s.tag.range.1 s.tag.range.2 := by
  unfold integerWord at h
  cases hx : v.integer? with
  | none =>
    have hv : v.isInteger = false := by
      cases v with
      | int | uint => cases hx
      | float | bool | bytes => rfl
    rw [hx] at h
    exact Or.inl ⟨hv, (Except.error.inj h).symm⟩
  | some x =>
    simp only [hx] at h
    split at h
    · next hout => exact Or.inr ⟨x, rfl, hout.1, hout.2, (Except.error.inj h).symm⟩
    · cases h

/-- The fault that is found when the bytes of a field are made is a fault of the field. -/
lemma fieldFault_of_payload (hs : s.tag ≠ .dynamic) (h : s.payload policy v = .error fault) :
    FieldFault policy (s, v) fault := by
  cases hk : s.tag.kind with
  | signedInt =>
    simp only [payload, hk] at h
    rcases integerWord_eq_error h with ⟨hv, rfl⟩ | ⟨x, hx, hpolicy, hout, rfl⟩
    · exact .notInteger (Or.inl hk) hv
    · rw [Tag.range_of_signed hk] at hout ⊢
      exact .outside hpolicy (.signed hk hx hout)
  | unsignedInt =>
    simp only [payload, hk] at h
    rcases integerWord_eq_error h with ⟨hv, rfl⟩ | ⟨x, hx, hpolicy, hout, rfl⟩
    · exact .notInteger (Or.inr hk) hv
    · rw [Tag.range_of_unsigned hk] at hout ⊢
      exact .outside hpolicy (.unsigned hk hx hout)
  | float32 =>
    simp only [payload, hk] at h
    obtain ⟨hv, rfl⟩ := numberOf_eq_error (map_eq_error h)
    exact .notNumber (Or.inl hk) hv
  | float64 =>
    simp only [payload, hk] at h
    obtain ⟨hv, rfl⟩ := numberOf_eq_error (map_eq_error h)
    exact .notNumber (Or.inr hk) hv
  | char =>
    simp only [payload, hk] at h
    split at h
    · cases h
    · next hnone =>
      rw [← Except.error.inj h]
      refine .notOneByte hk ?_
      rintro b rfl
      exact hnone b rfl
  | fixedBytes =>
    simp only [payload, hk] at h
    obtain ⟨hv, rfl⟩ := bytesOf_eq_error (map_eq_error h)
    exact .notBytes (Or.inl hk) hv
  | pascalString =>
    simp only [payload, hk] at h
    obtain ⟨hv, rfl⟩ := bytesOf_eq_error (map_eq_error h)
    exact .notBytes (Or.inr hk) hv
  | dynamicString => exact absurd (Tag.eq_dynamic_iff.mpr hk) hs
  | bool | pad => simp [payload, hk] at h

/-- Where nothing is wrong with a dynamic string, its bytes are made. -/
lemma exists_payload_of_no_stringFault {running : ℕ} (hs : s.tag = .dynamic)
    (h : ∀ fault, ¬ StringFault policy running (s, v) fault) :
    ∃ bytes, s.payload policy v = .ok bytes := by
  obtain ⟨bs, rfl, hkept, -⟩ := exists_kept_of_no_stringFault hs h
  simp only [payload, Tag.eq_dynamic_iff.mp hs, bytesOf_bytes, dynamicLength_of_kept hkept]
  exact ⟨_, rfl⟩

end Slot

/-- **The second pass finds the first fault of the other fields**, if the first pass has found none
in the strings. -/
theorem Writer.run_eq_some_iff {policy : Policy} {running : ℕ} {w : Writer}
    {fields : List (Slot × Value)} {fault : PackFault}
    (hstrings :
      Faultless (fun before => StringFault policy (running + stringBytes before)) fields) :
    (w.run policy fields).2 = some fault ↔
      FirstFault (fun _ => FieldFault policy) fields fault := by
  induction fields generalizing w running with
  | nil =>
    constructor
    · intro h
      cases h
    · intro h
      exact absurd h firstFault_nil
  | cons f fields ih =>
    obtain ⟨s, v⟩ := f
    obtain ⟨hstring, hstrings⟩ := faultless_cons.mp hstrings
    simp only [stringBytes_nil, stringBytes_cons, Nat.add_zero, ← Nat.add_assoc] at hstring hstrings
    rw [firstFault_cons]
    cases hbytes : s.payload policy v with
    | error first =>
      have hs : s.tag ≠ .dynamic := by
        intro hs
        obtain ⟨bytes, hok⟩ := Slot.exists_payload_of_no_stringFault hs hstring
        rw [hbytes] at hok
        cases hok
      have hfirst := Slot.fieldFault_of_payload hs hbytes
      simp only [run, hbytes, Option.some.injEq]
      constructor
      · rintro rfl
        exact Or.inl hfirst
      · rintro (hfault | ⟨hnone, -⟩)
        · exact Except.error.inj (hbytes.symm.trans (Slot.payload_of_fieldFault hfault))
        · exact absurd hfirst (hnone first)
    | ok bytes =>
      have hnone : ∀ other, ¬ FieldFault policy (s, v) other := by
        intro other hfault
        have herror := Slot.payload_of_fieldFault hfault
        rw [hbytes] at herror
        cases herror
      simp only [run, hbytes]
      rw [ih hstrings]
      constructor
      · intro h
        exact Or.inr ⟨hnone, h⟩
      · rintro (hfault | ⟨-, h⟩)
        · exact absurd hfault (hnone fault)
        · exact h

/-! ## Packing is decided -/

namespace Layout

variable {l : Layout} {policy : Policy} {buffer : Array UInt8} {values : List Value}

lemma packedSizeWith_of_faultless (hl : l.WellFormed) (harity : values.length = l.arity)
    (hstrings : Faultless (fun before => StringFault policy (l.size + stringBytes before))
      (l.assign values)) :
    l.packedSizeWith policy values = .ok (l.size + stringBytes (l.assign values)) :=
  (packedSizeWith_eq hl harity).trans (addDynamicSizes_of_faultless hstrings)

/-- Once the size is known, the answer is the fault of the second pass, or the size if there is
none. -/
lemma packInto_of_size {total : ℕ} (hsize : l.packedSizeWith policy values = .ok total)
    (hfits : buffer.size + total ≤ maxSize) :
    (l.packInto policy buffer values).2 =
      ((Writer.mk (buffer ++ Array.replicate total 0) buffer.size 0).run policy
        (l.assign values)).2.elim (.ok total) .error := by
  have hadd : addSize? buffer.size total = some (buffer.size + total) := if_pos hfits
  simp only [packInto, hsize, hadd]
  rcases (Writer.mk (buffer ++ Array.replicate total 0) buffer.size 0).run policy
    (l.assign values) with ⟨w, _ | fault⟩ <;> rfl

/-- What the checks decide is what packing answers. -/
lemma packInto_of_decides (hl : l.WellFormed) {answer : Except PackFault ℕ}
    (h : l.Decides policy buffer.size values answer) :
    (l.packInto policy buffer values).2 = answer := by
  cases h with
  | arity harity => simp only [packInto, packedSizeWith, if_pos harity]
  | string harity hfault =>
    have hsize := (packedSizeWith_eq hl harity).trans (addDynamicSizes_eq_error_iff.mpr hfault)
    simp only [packInto, hsize]
  | full harity hstrings hfull =>
    have hsize := packedSizeWith_of_faultless hl harity hstrings
    have hadd : addSize? buffer.size (l.size + stringBytes (l.assign values)) = none :=
      if_neg (not_le.mpr hfull)
    simp only [packInto, hsize, hadd]
  | field harity hstrings hfits hfault =>
    rw [packInto_of_size (packedSizeWith_of_faultless hl harity hstrings) hfits,
      (Writer.run_eq_some_iff hstrings).mpr hfault]
    rfl
  | taken harity hstrings hfits hfields =>
    rw [packInto_of_size (packedSizeWith_of_faultless hl harity hstrings) hfits]
    have hrun : ∀ w : Writer, (w.run policy (l.assign values)).2 = none := by
      intro w
      rw [Option.eq_none_iff_forall_ne_some]
      intro fault hfault
      exact faultless_iff.mp hfields fault ((Writer.run_eq_some_iff hstrings).mp hfault)
    rw [hrun]
    rfl

/-- The checks decide every case. -/
lemma exists_decides (l : Layout) (policy : Policy) (used : ℕ) (values : List Value) :
    ∃ answer, l.Decides policy used values answer := by
  by_cases harity : values.length = l.arity
  · by_cases hstrings : Faultless
        (fun before => StringFault policy (l.size + stringBytes before)) (l.assign values)
    · by_cases hfits : used + (l.size + stringBytes (l.assign values)) ≤ maxSize
      · by_cases hfields : Faultless (fun _ => FieldFault policy) (l.assign values)
        · exact ⟨_, .taken harity hstrings hfits hfields⟩
        · rw [faultless_iff] at hfields
          push Not at hfields
          obtain ⟨fault, hfault⟩ := hfields
          exact ⟨_, .field harity hstrings hfits hfault⟩
      · exact ⟨_, .full harity hstrings (not_le.mp hfits)⟩
    · rw [faultless_iff] at hstrings
      push Not at hstrings
      obtain ⟨fault, hfault⟩ := hstrings
      exact ⟨_, .string harity hfault⟩
  · exact ⟨_, .arity harity⟩

/-- Packing answers what the checks decide, and the checks decide nothing else. -/
theorem packInto_eq_iff (hl : l.WellFormed) {answer : Except PackFault ℕ} :
    (l.packInto policy buffer values).2 = answer ↔ l.Decides policy buffer.size values answer := by
  constructor
  · intro h
    obtain ⟨decided, hdecided⟩ := l.exists_decides policy buffer.size values
    rwa [← h, packInto_of_decides hl hdecided]
  · intro h
    exact packInto_of_decides hl h

/-- A record by itself is packed as one onto the end of an empty buffer. -/
lemma packWith_eq_error_iff (hl : l.WellFormed) {fault : PackFault} :
    l.packWith policy values = .error fault ↔ l.Decides policy 0 values (.error fault) := by
  have hdecides : (l.packInto policy #[] values).2 = .error fault ↔
      l.Decides policy 0 values (.error fault) := packInto_eq_iff hl
  rw [← hdecides, packWith]
  rcases l.packInto policy #[] values with ⟨bytes, _ | n⟩
  · simp
  · simp

/-- **Packing is decided by its checks, in their order.**  What it answers is what `Decides` says,
for every list of values, every policy and every buffer; and it succeeds exactly where none of the
checks finds anything wrong. -/
theorem packInto_iff_decides (room : Room) (format : String) (l : Layout)
    (hl : compileWithin room format = .ok l) (policy : Policy) (buffer : Array UInt8)
    (values : List Value) :
    (∀ answer, (l.packInto policy buffer values).2 = answer ↔
        l.Decides policy buffer.size values answer) ∧
      ((∃ n, (l.packInto policy buffer values).2 = .ok n) ↔
        values.length = l.arity ∧
          Faultless (fun before => StringFault policy (l.size + stringBytes before))
            (l.assign values) ∧
          buffer.size + (l.size + stringBytes (l.assign values)) ≤ maxSize ∧
          Faultless (fun _ => FieldFault policy) (l.assign values)) := by
  have hwf := wellFormed_of_compile hl
  refine ⟨fun answer => packInto_eq_iff hwf, ?_⟩
  constructor
  · rintro ⟨n, hn⟩
    rw [packInto_eq_iff hwf] at hn
    cases hn with
    | taken harity hstrings hfits hfields => exact ⟨harity, hstrings, hfits, hfields⟩
  · rintro ⟨harity, hstrings, hfits, hfields⟩
    exact ⟨_, packInto_of_decides hwf (.taken harity hstrings hfits hfields)⟩

/-- A truth value is no integer, and a string behind it is too long: the string is what counts.
Where it is cut, the truth value does. -/
theorem packInto_iff_decides_strings_first :
    (ofFields "h S" [⟨.int16, 1⟩, ⟨.dynamic, 1⟩]).Decides .standard 1
        [.bool true, .bytes (List.replicate 300 7)] (.error (.stringTooLong .dynamic 300 255)) ∧
      (ofFields "h S" [⟨.int16, 1⟩, ⟨.dynamic, 1⟩]).Decides ⟨.strict, .truncate⟩ 1
        [.bool true, .bytes (List.replicate 300 7)] (.error (.typeMismatch .int16 .bool)) :=
  ⟨((packInto_iff_decides .standard "h S" _ rfl .standard #[0] _).1 _).mp
      (by decide +kernel),
    ((packInto_iff_decides .standard "h S" _ rfl ⟨.strict, .truncate⟩ #[0] _).1 _).mp
      (by decide +kernel)⟩

end Layout

end PackedRecord
