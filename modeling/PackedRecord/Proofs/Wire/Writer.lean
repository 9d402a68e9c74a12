import Mathlib
import PackedRecord.Proofs.Format.Acceptance
import PackedRecord.Proofs.Wire.Encoding

/-!
# The writer is a sequential encoder

The writer never appends.  It prepares as many zeros as the first pass counted, and puts the bytes
of each field at the static offset of the field plus the dynamic bytes so far.  The invariant that
makes this an encoder is `Writer.At`: in front of the place for the next field stands what was
written, and behind it only zeros.  A field keeps it (`Writer.At.put`), and so does a pad, which
the writer passes over (`Writer.At.skip`).  So at the end of a run there stand the pieces of the
record, one after the other (`Writer.run_of_encodes`).

The first pass counts the bytes of these pieces (`Layout.packedSizeWith_of_encodes`).  Together they
say when packing succeeds and what it gives: `Layout.encodes_of_packWith` reads off the pieces of a
packed record, and `Layout.packWith_of_encodes` packs pieces that the policy takes.
-/

namespace PackedRecord

/-! ## Values for fields -/

/-- The fields that take a value, each with its value. -/
def assignment (slots : List Slot) (values : List Value) : List (Slot × Value) :=
  (slots.filter fun s => s.tag.hasValue).zip values

lemma Layout.assign_eq (l : Layout) (values : List Value) :
    l.assign values = assignment l.slots values := rfl

lemma assignment_pad {s : Slot} (hs : s.tag.hasValue = false) (slots : List Slot)
    (values : List Value) : assignment (s :: slots) values = assignment slots values := by
  simp [assignment, hs]

lemma assignment_field {s : Slot} (hs : s.tag.hasValue = true) (slots : List Slot) (v : Value)
    (values : List Value) :
    assignment (s :: slots) (v :: values) = (s, v) :: assignment slots values := by
  simp [assignment, hs]

/-- A policy takes all values of a record. -/
def Policy.Takes (policy : Policy) (fields : List (Slot × Value)) : Prop :=
  ∀ f ∈ fields, ∃ bytes, f.1.payload policy f.2 = .ok bytes

lemma Policy.Takes.head {policy : Policy} {s : Slot} {v : Value} {fields : List (Slot × Value)}
    (h : policy.Takes ((s, v) :: fields)) : ∃ bytes, s.payload policy v = .ok bytes :=
  h (s, v) List.mem_cons_self

lemma Policy.Takes.tail {policy : Policy} {f : Slot × Value} {fields : List (Slot × Value)}
    (h : policy.Takes (f :: fields)) : policy.Takes fields := by
  intro g hg
  exact h g (List.mem_cons_of_mem f hg)

/-- A value that the policy takes is written as the front of its piece. -/
lemma Policy.Takes.exists_front {policy : Policy} {s : Slot} {v : Value} {piece : List UInt8}
    {fields : List (Slot × Value)} (h : policy.Takes ((s, v) :: fields)) (hslot : s.field.Proper)
    (hs : s.tag.hasValue = true) (hpiece : s.encoding? v = some piece) :
    ∃ bytes, s.payload policy v = .ok bytes ∧ bytes.length ≤ s.extent bytes ∧
      piece = zeroFilled (s.extent bytes) bytes := by
  obtain ⟨bytes, hbytes⟩ := h.head
  obtain ⟨hle, henc⟩ := Slot.encoding?_of_payload hslot hs hbytes
  rw [hpiece] at henc
  exact ⟨bytes, hbytes, hle, Option.some.inj henc⟩

/-- Values that a policy takes have an encoding. -/
lemma exists_encodes {policy : Policy} {slots : List Slot} {values : List Value}
    (hproper : ∀ s ∈ slots, s.field.Proper)
    (hlength : values.length = (slots.filter fun s => s.tag.hasValue).length)
    (htakes : policy.Takes (assignment slots values)) :
    ∃ pieces, Encodes slots values pieces := by
  induction slots generalizing values with
  | nil =>
    rw [List.filter_nil, List.length_nil, List.length_eq_zero_iff] at hlength
    subst hlength
    exact ⟨[], .nil⟩
  | cons s slots ih =>
    obtain ⟨hslot, hproper⟩ := List.forall_mem_cons.mp hproper
    cases hs : s.tag.hasValue with
    | false =>
      rw [assignment_pad hs] at htakes
      obtain ⟨pieces, henc⟩ := ih hproper (by simpa [hs] using hlength) htakes
      exact ⟨_, .pad hs henc⟩
    | true =>
      cases values with
      | nil => simp [hs] at hlength
      | cons v values =>
        rw [assignment_field hs] at htakes
        obtain ⟨pieces, henc⟩ := ih hproper (by simpa [hs] using hlength) htakes.tail
        obtain ⟨bytes, hbytes⟩ := htakes.head
        have hpiece := (Slot.encoding?_of_payload hslot hs hbytes).2
        exact ⟨_, .field hs hpiece henc⟩

lemma Encodes.length_values {slots : List Slot} {values : List Value} {pieces : List (List UInt8)}
    (henc : Encodes slots values pieces) :
    values.length = (slots.filter fun s => s.tag.hasValue).length := by
  induction henc with
  | nil => rfl
  | pad hs _ ih => simpa [hs] using ih
  | field hs _ _ ih => simpa [hs] using ih

/-! ## Writing over what is there -/

/-- Bytes written over as many others replace these. -/
lemma toList_overwrite {buffer : Array UInt8} {front mid back bytes : List UInt8}
    (hbuffer : buffer.toList = front ++ (mid ++ back)) (hmid : mid.length = bytes.length) :
    (overwrite buffer front.length bytes).toList = front ++ (bytes ++ back) := by
  induction bytes generalizing buffer front mid with
  | nil =>
    rw [List.length_nil, List.length_eq_zero_iff] at hmid
    subst hmid
    exact hbuffer
  | cons b bytes ih =>
    cases mid with
    | nil => cases hmid
    | cons m mid =>
      have hset : (buffer.setIfInBounds front.length b).toList =
          (front ++ [b]) ++ (mid ++ back) := by
        rw [Array.toList_setIfInBounds, hbuffer]
        simp
      have hrest := ih hset (by simpa using hmid)
      rw [List.length_append, List.length_singleton] at hrest
      rw [overwrite, hrest]
      simp

/-! ## The invariant of the writer -/

namespace Writer

/-- The writer is about to write a field at `offset` of the static region: it has written `written`,
the records in front of this one included, and `rest` zeros follow. -/
structure At (w : Writer) (offset : ℕ) (written : List UInt8) (rest : ℕ) : Prop where
  buffer : w.buffer.toList = written ++ List.replicate rest 0
  position : written.length = w.start + (offset + w.shift)

/-- A pad is passed over; its zeros are there already. -/
lemma At.skip {w : Writer} {offset count rest : ℕ} {written : List UInt8}
    (hat : w.At offset written (count + rest)) :
    w.At (offset + count) (written ++ List.replicate count 0) rest where
  buffer := by rw [hat.buffer, List.append_assoc, List.replicate_append_replicate]
  position := by
    have hposition := hat.position
    rw [List.length_append, List.length_replicate]
    omega

/-- A field writes the front of its piece, and the rest of the piece is zeros that are there
already. -/
lemma At.put {w : Writer} {s : Slot} {rest : ℕ} {written bytes : List UInt8}
    (hs : s.field.Proper) (hle : bytes.length ≤ s.extent bytes)
    (hat : w.At s.offset written (s.extent bytes + rest)) :
    (w.put s bytes).At (s.offset + s.size) (written ++ zeroFilled (s.extent bytes) bytes) rest where
  buffer := by
    have hsplit : w.buffer.toList = written ++ (List.replicate bytes.length 0 ++
        List.replicate (s.extent bytes - bytes.length + rest) 0) := by
      rw [hat.buffer, List.replicate_append_replicate]
      congr 2
      omega
    rw [Writer.put, ← hat.position, toList_overwrite hsplit (by simp), zeroFilled_of_length_le hle,
      ← List.replicate_append_replicate]
    simp
  position := by
    have hposition := hat.position
    rw [List.length_append, length_zeroFilled]
    simp only [Writer.put, Slot.extent]
    split
    · next hdynamic =>
      have hsize : s.size = 0 := Slot.size_of_dynamic hs hdynamic
      omega
    · omega

/-- **A run of the writer lays the pieces of the record one after the other.** -/
theorem run_of_encodes {policy : Policy} {slots : List Slot} {values : List Value}
    {pieces : List (List UInt8)} (henc : Encodes slots values pieces)
    (hproper : ∀ s ∈ slots, s.field.Proper) (htakes : policy.Takes (assignment slots values))
    {w : Writer} {offset rest : ℕ} {written : List UInt8} (htiled : Tiled offset slots)
    (hat : w.At offset written (pieces.flatten.length + rest)) :
    ∃ w', w.run policy (assignment slots values) = (w', none) ∧
      w'.At (offset + staticSize slots) (written ++ pieces.flatten) rest := by
  induction henc generalizing w offset written with
  | nil => exact ⟨w, rfl, by simpa using hat⟩
  | @pad s slots values pieces hs hrest ih =>
    obtain ⟨-, htiled⟩ := htiled
    obtain ⟨hslot, hproper⟩ := List.forall_mem_cons.mp hproper
    have hsize : s.size = s.count := Slot.size_of_pad hslot hs
    rw [assignment_pad hs] at htakes ⊢
    have hat' : w.At (offset + s.count) (written ++ List.replicate s.count 0)
        (pieces.flatten.length + rest) := At.skip (by simpa [Nat.add_assoc] using hat)
    rw [← hsize] at hat'
    obtain ⟨w', hrun, hend⟩ := ih hproper htakes htiled hat'
    refine ⟨w', hrun, ?_⟩
    rw [hsize] at hend
    simpa [hsize, Nat.add_assoc] using hend
  | @field s slots v values piece pieces hs hpiece hrest ih =>
    obtain ⟨rfl, htiled⟩ := htiled
    obtain ⟨hslot, hproper⟩ := List.forall_mem_cons.mp hproper
    rw [assignment_field hs] at htakes ⊢
    obtain ⟨bytes, hbytes, hle, rfl⟩ := htakes.exists_front hslot hs hpiece
    have hat' : (w.put s bytes).At (s.offset + s.size)
        (written ++ zeroFilled (s.extent bytes) bytes) (pieces.flatten.length + rest) :=
      At.put hslot hle (by simpa [Nat.add_assoc] using hat)
    obtain ⟨w', hrun, hend⟩ := ih hproper htakes.tail htiled hat'
    refine ⟨w', by simp only [Writer.run, hbytes, hrun], ?_⟩
    simpa [Nat.add_assoc] using hend

/-- A run without a fault has met no value that the policy refuses. -/
lemma takes_of_run {policy : Policy} {w : Writer} {fields : List (Slot × Value)}
    (h : (w.run policy fields).2 = none) : policy.Takes fields := by
  induction fields generalizing w with
  | nil =>
    intro f hf
    cases hf
  | cons f fields ih =>
    obtain ⟨s, v⟩ := f
    cases hbytes : s.payload policy v with
    | error fault => simp [Writer.run, hbytes] at h
    | ok bytes =>
      simp only [Writer.run, hbytes] at h
      intro g hg
      rcases List.mem_cons.mp hg with rfl | hg
      · exact ⟨bytes, hbytes⟩
      · exact ih h g hg

end Writer

/-! ## The first pass -/

/-- The first pass adds what the pieces have beyond their static bytes. -/
lemma addDynamicSizes_of_encodes {policy : Policy} {slots : List Slot} {values : List Value}
    {pieces : List (List UInt8)} (henc : Encodes slots values pieces)
    (hproper : ∀ s ∈ slots, s.field.Proper) (htakes : policy.Takes (assignment slots values))
    {total : ℕ} (htotal : total ≤ maxSize) :
    ∃ moved, pieces.flatten.length = staticSize slots + moved ∧
      addDynamicSizes policy total (assignment slots values) =
        if total + moved ≤ maxSize then .ok (total + moved) else .error .sizeOverflow := by
  induction henc generalizing total with
  | nil => exact ⟨0, rfl, by simp [assignment, addDynamicSizes, htotal]⟩
  | @pad s slots values pieces hs hrest ih =>
    obtain ⟨hslot, hproper⟩ := List.forall_mem_cons.mp hproper
    have hsize : s.size = s.count := Slot.size_of_pad hslot hs
    rw [assignment_pad hs] at htakes ⊢
    obtain ⟨moved, hlength, hadd⟩ := ih hproper htakes htotal
    exact ⟨moved, by simp [hlength, hsize, Nat.add_assoc], hadd⟩
  | @field s slots v values piece pieces hs hpiece hrest ih =>
    obtain ⟨hslot, hproper⟩ := List.forall_mem_cons.mp hproper
    rw [assignment_field hs] at htakes ⊢
    obtain ⟨bytes, hbytes, -, rfl⟩ := htakes.exists_front hslot hs hpiece
    by_cases hdynamic : s.tag = .dynamic
    · obtain ⟨bs, n, hbs, hn, rfl⟩ := Slot.payload_of_dynamic hdynamic hbytes
      have hsize : s.size = 0 := Slot.size_of_dynamic hslot hdynamic
      have hextent : s.extent (Slot.prefixed n bs) = n + 1 := by
        rw [Slot.extent, if_pos hdynamic, Slot.length_prefixed (Slot.dynamicLength_le hn)]
      simp only [addDynamicSizes, hdynamic, if_true, hbs, hn, addSize?]
      by_cases hfits : total + (n + 1) ≤ maxSize
      · obtain ⟨moved, hlength, hadd⟩ := ih hproper htakes.tail hfits
        refine ⟨n + 1 + moved, ?_, ?_⟩
        · simp [hlength, hsize, hextent]
          omega
        · simp only [hfits, if_true, hadd, Nat.add_assoc]
      · obtain ⟨moved, hlength, -⟩ := ih hproper htakes.tail htotal
        refine ⟨n + 1 + moved, ?_, ?_⟩
        · simp [hlength, hsize, hextent]
          omega
        · rw [if_neg hfits, if_neg (by omega)]
    · have hextent : s.extent bytes = s.size := if_neg hdynamic
      obtain ⟨moved, hlength, hadd⟩ := ih hproper htakes.tail htotal
      refine ⟨moved, by simp [hlength, hextent, Nat.add_assoc], ?_⟩
      simp only [addDynamicSizes, hdynamic, if_false, hadd]

/-- Without dynamic strings there is nothing to add. -/
lemma addDynamicSizes_of_static {policy : Policy} {total : ℕ} {fields : List (Slot × Value)}
    (h : ∀ f ∈ fields, f.1.tag ≠ .dynamic) : addDynamicSizes policy total fields = .ok total := by
  induction fields with
  | nil => rfl
  | cons f fields ih =>
    obtain ⟨s, v⟩ := f
    obtain ⟨hs, hfields⟩ := List.forall_mem_cons.mp h
    simp only [addDynamicSizes, hs, if_false]
    exact ih hfields

namespace Layout

/-- The first pass is the sum of the sizes, whether or not the layout has dynamic strings. -/
lemma packedSizeWith_eq {l : Layout} (hl : l.WellFormed) {policy : Policy} {values : List Value}
    (harity : values.length = l.arity) :
    l.packedSizeWith policy values = addDynamicSizes policy l.size (assignment l.slots values) := by
  unfold packedSizeWith
  rw [if_neg (not_not.mpr harity)]
  cases hdynamic : l.dynamic with
  | true => rfl
  | false =>
    rw [if_neg Bool.false_ne_true]
    refine (addDynamicSizes_of_static ?_).symm
    intro f hf
    exact hl.static_iff.mp hdynamic f.1 (List.mem_of_mem_filter (List.of_mem_zip hf).1)

/-- **The first pass counts the bytes of the pieces.** -/
theorem packedSizeWith_of_encodes {l : Layout} (hl : l.WellFormed) {policy : Policy}
    {values : List Value} {pieces : List (List UInt8)} (henc : Encodes l.slots values pieces)
    (htakes : policy.Takes (assignment l.slots values)) :
    l.packedSizeWith policy values =
      if pieces.flatten.length ≤ maxSize then .ok pieces.flatten.length
      else .error .sizeOverflow := by
  have harity : values.length = l.arity := by
    rw [henc.length_values, hl.arity_eq]
    rfl
  obtain ⟨moved, hlength, hadd⟩ := addDynamicSizes_of_encodes henc hl.proper htakes hl.size_le
  rw [packedSizeWith_eq hl harity, hadd, hlength, hl.size_eq]

/-! ## Packing -/

/-- A record is packed only if it has as many values as the layout takes, and the policy takes them
all. -/
lemma takes_of_packInto {l : Layout} {policy : Policy} {buffer after : Array UInt8}
    {values : List Value} {n : ℕ} (h : l.packInto policy buffer values = (after, .ok n)) :
    values.length = l.arity ∧ policy.Takes (assignment l.slots values) := by
  unfold packInto at h
  cases hsize : l.packedSizeWith policy values with
  | error fault => simp [hsize] at h
  | ok total =>
    have harity : values.length = l.arity := by
      by_contra hne
      simp [packedSizeWith, hne] at hsize
    refine ⟨harity, ?_⟩
    cases hstart : addSize? buffer.size total with
    | none => simp [hsize, hstart] at h
    | some sum =>
      simp only [hsize, hstart] at h
      rcases hrun : (Writer.mk (buffer ++ Array.replicate total 0) buffer.size 0).run policy
        (l.assign values) with ⟨w, _ | fault⟩
      · exact Writer.takes_of_run (congrArg Prod.snd hrun)
      · rw [hrun] at h
        cases (Prod.mk.inj h).2

/-- Packing values that the policy takes appends their pieces, if the buffer is not too long with
them. -/
theorem packInto_of_encodes {l : Layout} (hl : l.WellFormed) {policy : Policy}
    (buffer : Array UInt8) {values : List Value} {pieces : List (List UInt8)}
    (henc : Encodes l.slots values pieces) (htakes : policy.Takes (assignment l.slots values)) :
    l.packInto policy buffer values =
      if buffer.size + pieces.flatten.length ≤ maxSize then
        (buffer ++ pieces.flatten.toArray, .ok pieces.flatten.length)
      else (buffer, .error .sizeOverflow) := by
  have hsize := packedSizeWith_of_encodes hl henc htakes
  by_cases hfits : buffer.size + pieces.flatten.length ≤ maxSize
  · rw [if_pos (by omega)] at hsize
    have hstart : addSize? buffer.size pieces.flatten.length =
        some (buffer.size + pieces.flatten.length) := by
      rw [addSize?, if_pos hfits]
    have hat : (Writer.mk (buffer ++ Array.replicate pieces.flatten.length 0) buffer.size 0).At 0
        buffer.toList (pieces.flatten.length + 0) := ⟨by simp, by simp⟩
    obtain ⟨w, hrun, hend⟩ := Writer.run_of_encodes henc hl.proper htakes hl.tiled hat
    have hbuffer : w.buffer = buffer ++ pieces.flatten.toArray := by
      apply Array.toList_inj.mp
      simpa using hend.buffer
    simp only [packInto, hsize, hstart, assign_eq, hrun, hbuffer, hfits, if_true]
  · rw [if_neg hfits]
    by_cases hrecord : pieces.flatten.length ≤ maxSize
    · rw [if_pos hrecord] at hsize
      have hstart : addSize? buffer.size pieces.flatten.length = none := by
        rw [addSize?, if_neg hfits]
      simp only [packInto, hsize, hstart]
    · rw [if_neg hrecord] at hsize
      simp only [packInto, hsize]

/-- A record by itself is one that is packed into an empty buffer. -/
lemma packInto_of_packWith {l : Layout} {policy : Policy} {values : List Value}
    {bytes : Array UInt8} (h : l.packWith policy values = .ok bytes) :
    ∃ n, l.packInto policy #[] values = (bytes, .ok n) := by
  unfold packWith at h
  split at h
  · cases h
  · next after n hpack =>
    obtain rfl := Except.ok.inj h
    exact ⟨n, hpack⟩

lemma takes_of_packWith {l : Layout} {policy : Policy} {values : List Value}
    {bytes : Array UInt8} (h : l.packWith policy values = .ok bytes) :
    values.length = l.arity ∧ policy.Takes (assignment l.slots values) := by
  obtain ⟨n, hpack⟩ := packInto_of_packWith h
  exact takes_of_packInto hpack

/-- Packing values that the policy takes gives their pieces, if these are not too long together. -/
theorem packWith_of_encodes {l : Layout} (hl : l.WellFormed) {policy : Policy}
    {values : List Value} {pieces : List (List UInt8)} (henc : Encodes l.slots values pieces)
    (htakes : policy.Takes (assignment l.slots values)) :
    l.packWith policy values =
      if pieces.flatten.length ≤ maxSize then .ok pieces.flatten.toArray
      else .error .sizeOverflow := by
  have hpack := packInto_of_encodes hl #[] henc htakes
  rw [List.size_toArray, List.length_nil, Nat.zero_add] at hpack
  rw [packWith, hpack]
  by_cases hfits : pieces.flatten.length ≤ maxSize
  · simp only [hfits, if_true, Array.empty_append]
  · simp only [hfits, if_false]

/-- Values of the right number that the policy takes have pieces. -/
lemma exists_encodes_of_takes {l : Layout} (hl : l.WellFormed) {policy : Policy}
    {values : List Value} (harity : values.length = l.arity)
    (htakes : policy.Takes (assignment l.slots values)) :
    ∃ pieces, Encodes l.slots values pieces := by
  apply exists_encodes hl.proper _ htakes
  rw [harity, hl.arity_eq]
  rfl

/-- A packed record consists of the pieces of its values, which the policy takes. -/
theorem encodes_of_packWith {l : Layout} (hl : l.WellFormed) {policy : Policy}
    {values : List Value} {bytes : Array UInt8} (h : l.packWith policy values = .ok bytes) :
    ∃ pieces, Encodes l.slots values pieces ∧ policy.Takes (assignment l.slots values) ∧
      pieces.flatten.length ≤ maxSize ∧ bytes.toList = pieces.flatten := by
  obtain ⟨harity, htakes⟩ := takes_of_packWith h
  obtain ⟨pieces, henc⟩ := exists_encodes_of_takes hl harity htakes
  have hpack := packWith_of_encodes hl henc htakes
  rw [h] at hpack
  refine ⟨pieces, henc, htakes, ?_⟩
  split at hpack
  · next hfits =>
    rw [Except.ok.inj hpack]
    exact ⟨hfits, rfl⟩
  · cases hpack

/-- **Packing is sequential encoding.**  The bytes of a packed record are the encodings of its
fields in the order of declaration, without a gap and without an overlap. -/
theorem packWith_eq_sequential (room : Room) (format : String) (l : Layout)
    (hl : compileWithin room format = .ok l) (policy : Policy) (values : List Value)
    (bytes : Array UInt8) (h : l.packWith policy values = .ok bytes) :
    ∃ pieces, Encodes l.slots values pieces ∧ bytes.toList = pieces.flatten := by
  obtain ⟨pieces, henc, -, -, hbytes⟩ := encodes_of_packWith (wellFormed_of_compile hl) h
  exact ⟨pieces, henc, hbytes⟩

/-- A dynamic string in front moves all other fields, a wrapped integer and a cut string among
them. -/
theorem packWith_eq_sequential_moved :
    ∃ pieces, Encodes
        (placed 0 [⟨.dynamic, 1⟩, ⟨.int16, 1⟩, ⟨.pascal, 4⟩, ⟨.pad, 2⟩, ⟨.dynamic, 1⟩])
        [.bytes [7, 8], .int 70000, .bytes [1, 2, 3, 4], .bytes [9]] pieces ∧
      [2, 7, 8, 0x70, 0x11, 3, 1, 2, 3, 0, 0, 1, 9] = pieces.flatten :=
  packWith_eq_sequential .standard "S h 4p 2x S"
    (ofFields "S h 4p 2x S" [⟨.dynamic, 1⟩, ⟨.int16, 1⟩, ⟨.pascal, 4⟩, ⟨.pad, 2⟩, ⟨.dynamic, 1⟩])
    rfl .standard _ #[2, 7, 8, 0x70, 0x11, 3, 1, 2, 3, 0, 0, 1, 9] (by decide +kernel)

end Layout

end PackedRecord
