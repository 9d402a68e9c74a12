/-!
# UTF-8

Texts travel as UTF-8 bytes.  Decoding goes from left to right; the first sequence that is no
character stops it, and the fault tells where that sequence starts and how much of it could still
have begun a character: `badLength` is `none` when the bytes end inside such a sequence.

The lead byte of a sequence fixes how many bytes follow and the range of the second one, which
excludes overlong forms, surrogates and code points above `U+10FFFF`; each later byte lies in
`80` to `bf`.

The main statement is `decode_encode`: every text is read back from its bytes.
-/

namespace PackedRecord.Text

/-- Where the first malformed sequence starts, and the length of the longest part of it that
could begin a character, if the bytes did not simply end there. -/
structure Utf8Fault where
  start : Nat
  badLength : Option Nat
  deriving DecidableEq, Repr

/-- What a lead byte announces: the bits it contributes, the number of bytes to follow, and the
range of the first of these. -/
structure Lead where
  bits : Nat
  following : Nat
  low : Nat
  high : Nat

/-- The reading of a lead byte, if it is one. -/
def lead? (b : Nat) : Option Lead :=
  if b < 0x80 then some ⟨b, 0, 0x80, 0xbf⟩
  else if b < 0xc2 then none
  else if b < 0xe0 then some ⟨b - 0xc0, 1, 0x80, 0xbf⟩
  else if b < 0xf0 then
    some ⟨b - 0xe0, 2, if b = 0xe0 then 0xa0 else 0x80, if b = 0xed then 0x9f else 0xbf⟩
  else if b < 0xf5 then
    some ⟨b - 0xf0, 3, if b = 0xf0 then 0x90 else 0x80, if b = 0xf4 then 0x8f else 0xbf⟩
  else none

/-- Reads the bytes that follow a lead byte, `seen` bytes into the sequence.  The fault is the
length of the part read so far, or `none` at the end of the bytes. -/
def follow : (following low high bits seen : Nat) → List UInt8 →
    Except (Option Nat) (Nat × List UInt8)
  | 0, _, _, bits, _, rest => .ok (bits, rest)
  | _ + 1, _, _, _, _, [] => .error none
  | n + 1, low, high, bits, seen, b :: rest =>
    if low ≤ b.toNat ∧ b.toNat ≤ high then
      follow n 0x80 0xbf (bits * 64 + b.toNat % 64) (seen + 1) rest
    else .error (some seen)

theorem length_le_of_follow {n low high bits seen : Nat} {bs rest : List UInt8} {v : Nat}
    (h : follow n low high bits seen bs = .ok (v, rest)) : rest.length ≤ bs.length := by
  induction n generalizing low high bits seen bs with
  | zero => simp only [follow, Except.ok.injEq, Prod.mk.injEq] at h; simp [h.2]
  | succ n ih =>
    cases bs with
    | nil => simp [follow] at h
    | cons b bs =>
      simp only [follow] at h
      split at h
      · exact Nat.le_succ_of_le (ih h)
      · simp at h

/-- Decodes the bytes that stand from position `start` on. -/
def decodeFrom (start : Nat) (bs : List UInt8) : Except Utf8Fault (List Char) :=
  match bs with
  | [] => .ok []
  | b :: tail =>
    match lead? b.toNat with
    | none => .error ⟨start, some 1⟩
    | some lead =>
      match h : follow lead.following lead.low lead.high lead.bits 1 tail with
      | .error badLength => .error ⟨start, badLength⟩
      | .ok (code, rest) =>
        have : rest.length ≤ tail.length := length_le_of_follow h
        match decodeFrom (start + (bs.length - rest.length)) rest with
        | .error fault => .error fault
        | .ok cs => .ok (Char.ofNat code :: cs)
termination_by bs.length
decreasing_by
  simp only [List.length_cons]
  omega

/-- The text in UTF-8 bytes. -/
def decode (bs : List UInt8) : Except Utf8Fault String :=
  (decodeFrom 0 bs).map String.ofList

/-- The UTF-8 bytes of a text. -/
def encode (s : String) : List UInt8 :=
  s.toList.flatMap String.utf8EncodeChar

/-! ## Decoding what was encoded -/

theorem toNat_ofNat_byte {n : Nat} (h : n < 256) : (UInt8.ofNat n).toNat = n := by
  rw [UInt8.toNat_ofNat']
  exact Nat.mod_eq_of_lt h

/-- A byte in the range of its place contributes its six low bits. -/
theorem follow_cons {n low high bits seen m code : Nat} {bytes rest : List UInt8} (hm : m < 64)
    (hlow : low ≤ m + 128) (hhigh : m + 128 ≤ high)
    (h : follow n 0x80 0xbf (bits * 64 + m) (seen + 1) bytes = .ok (code, rest)) :
    follow (n + 1) low high bits seen (UInt8.ofNat (m + 128) :: bytes) = .ok (code, rest) := by
  rw [follow, toNat_ofNat_byte (by omega), if_pos ⟨hlow, hhigh⟩,
    show (m + 128) % 64 = m by omega, h]

theorem follow_zero {low high bits seen code : Nat} {rest : List UInt8} (h : bits = code) :
    follow 0 low high bits seen rest = .ok (code, rest) := by
  rw [h, follow]

/-- Every character begins with a lead byte, and the bytes that follow it give back its code. -/
theorem lead_follow_encodeChar (c : Char) (rest : List UInt8) :
    ∃ b tail lead, String.utf8EncodeChar c ++ rest = b :: tail ∧ lead? b.toNat = some lead ∧
      follow lead.following lead.low lead.high lead.bits 1 tail = .ok (c.toNat, rest) := by
  have valid : c.toNat < 0xd800 ∨ (0xdfff < c.toNat ∧ c.toNat < 0x110000) := c.valid
  unfold String.utf8EncodeChar
  simp only [show c.val.toNat = c.toNat from rfl]
  generalize c.toNat = n at valid ⊢
  split
  · refine ⟨_, _, ⟨n, 0, 0x80, 0xbf⟩, rfl, ?_, follow_zero rfl⟩
    rw [toNat_ofNat_byte (by omega), lead?, if_pos (by omega)]
  split
  · refine ⟨_, _, ⟨n / 64, 1, 0x80, 0xbf⟩, rfl, ?_, ?_⟩
    · rw [toNat_ofNat_byte (by omega), lead?, if_neg (by omega), if_neg (by omega),
        if_pos (by omega)]
      simp only [Option.some.injEq, Lead.mk.injEq, and_true]
      omega
    · dsimp only
      exact follow_cons (by omega) (by omega) (by omega) (follow_zero (by omega))
  split
  · refine ⟨_, _, ⟨n / 4096, 2, if n / 4096 = 0 then 0xa0 else 0x80,
      if n / 4096 = 13 then 0x9f else 0xbf⟩, rfl, ?_, ?_⟩
    · rw [toNat_ofNat_byte (by omega), lead?, if_neg (by omega), if_neg (by omega),
        if_neg (by omega), if_pos (by omega)]
      simp only [Option.some.injEq, Lead.mk.injEq, true_and]
      refine ⟨by omega, ?_, ?_⟩ <;> split <;> split <;> omega
    · dsimp only
      exact follow_cons (by omega) (by split <;> omega) (by split <;> omega)
        (follow_cons (by omega) (by omega) (by omega) (follow_zero (by omega)))
  · refine ⟨_, _, ⟨n / 262144, 3, if n / 262144 = 0 then 0x90 else 0x80,
      if n / 262144 = 4 then 0x8f else 0xbf⟩, rfl, ?_, ?_⟩
    · rw [toNat_ofNat_byte (by omega), lead?, if_neg (by omega), if_neg (by omega),
        if_neg (by omega), if_neg (by omega), if_pos (by omega)]
      simp only [Option.some.injEq, Lead.mk.injEq, true_and]
      refine ⟨by omega, ?_, ?_⟩ <;> split <;> split <;> omega
    · dsimp only
      exact follow_cons (by omega) (by split <;> omega) (by split <;> omega)
        (follow_cons (by omega) (by omega) (by omega)
          (follow_cons (by omega) (by omega) (by omega) (follow_zero (by omega))))

theorem decodeFrom_encodeChar (start : Nat) (c : Char) (rest : List UInt8) :
    ∃ next, decodeFrom start (String.utf8EncodeChar c ++ rest) =
      (decodeFrom next rest).map (c :: ·) := by
  obtain ⟨b, tail, lead, hbytes, hlead, hfollow⟩ := lead_follow_encodeChar c rest
  refine ⟨start + ((b :: tail).length - rest.length), ?_⟩
  rw [hbytes, decodeFrom]
  simp only [hlead]
  split
  · rename_i h
    rw [hfollow] at h
    simp at h
  · rename_i h
    rw [hfollow] at h
    simp only [Except.ok.injEq, Prod.mk.injEq] at h
    obtain ⟨rfl, rfl⟩ := h
    rw [Char.ofNat_toNat]
    split <;> simp_all [Except.map]

theorem decodeFrom_flatMap (start : Nat) (cs : List Char) :
    decodeFrom start (cs.flatMap String.utf8EncodeChar) = .ok cs := by
  induction cs generalizing start with
  | nil => rw [List.flatMap_nil, decodeFrom]
  | cons c cs ih =>
    obtain ⟨next, h⟩ := decodeFrom_encodeChar start c (cs.flatMap String.utf8EncodeChar)
    rw [List.flatMap_cons, h, ih next]
    rfl

/-- Every text is read back from its bytes. -/
theorem decode_encode (s : String) : decode (encode s) = .ok s := by
  rw [decode, encode, decodeFrom_flatMap]
  simp [Except.map]

/-! ## Wording -/

/-- The wording of a decoding fault. -/
def Utf8Fault.message (fault : Utf8Fault) : String :=
  match fault.badLength with
  | some n => s!"invalid utf-8 sequence of {n} bytes from index {fault.start}"
  | none => s!"incomplete utf-8 byte sequence from index {fault.start}"

end PackedRecord.Text
