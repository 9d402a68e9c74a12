import Mathlib
import PackedRecord.Codec
import PackedRecord.Record
import PackedRecord.Proofs.Format.Acceptance

/-!
# What a cache can change

A cache may save the work of compiling and must change nothing else.  The invariant for this is
`LayoutCache.Sound`: a cache holds no more entries than its capacity, and under each format it
holds the layout that the format compiles to in the room of the cache.  A new cache is sound, and
every use keeps it so (`Sound.after`), hence it holds at every point of a run (`sound_run`).  Room
and capacity are never touched (`room_run`, `capacity_run`), so that all that is said of a run holds
for caches in any room.

What a use does to the entries is said once, by `getOrCompile_cases` for the three ways that a
look-up can end, and by `size_store` and `get?_store` for a handle that is stored.  The answer of
`getOrCompile` does not depend on the entries of a sound cache (`Sound.answer`), and with it neither
does any operation on a format at hand: each of them answers as if the format had been compiled for
it alone (`Sound.withLayout_eq`).
-/

namespace PackedRecord

/-- A use of a cache. -/
inductive CacheCall
  | getOrCompile (format : String)
  | get (format : String)
  | contains (format : String)
  | clear

/-- An operation on the layout of a format, compiled for this operation alone. -/
def afresh {α : Type} (room : Room) (format : String) (operation : Layout → Except Fault α) :
    Except Fault α :=
  match Layout.compileWithin room format with
  | .error fault => .error (.format fault)
  | .ok l => operation l

namespace LayoutCache

/-- The cache after a use.  Looking for a format does not touch it. -/
def after (c : LayoutCache) : CacheCall → LayoutCache
  | .getOrCompile format => (c.getOrCompile format).2
  | .get _ => c
  | .contains _ => c
  | .clear => c.clear

/-- The cache after some uses, one after the other. -/
def run (c : LayoutCache) (calls : List CacheCall) : LayoutCache :=
  calls.foldl after c

variable {c : LayoutCache} {format other : String}

/-! ## What a use does to the entries -/

/-- **The three ends of a look-up.**  The format is kept; or it is not and does not compile; or it
is compiled and its handle stored. -/
theorem getOrCompile_cases (c : LayoutCache) (format : String) :
    (∃ handle, c.get? format = some handle ∧ c.getOrCompile format = (.ok handle, c)) ∨
      (∃ fault, Layout.compileWithin c.room format = .error fault ∧ c.get? format = none ∧
        c.getOrCompile format = (.error fault, c)) ∨
      ∃ l, Layout.compileWithin c.room format = .ok l ∧ c.get? format = none ∧
        c.getOrCompile format = (.ok ⟨c.compiled, l⟩,
          { c with compiled := c.compiled + 1 }.store format ⟨c.compiled, l⟩) := by
  unfold getOrCompile
  cases hget : c.get? format with
  | some handle => exact Or.inl ⟨handle, rfl, rfl⟩
  | none =>
    cases hcompile : Layout.compileWithin c.room format with
    | error fault => exact Or.inr (Or.inl ⟨fault, rfl, rfl, rfl⟩)
    | ok l => exact Or.inr (Or.inr ⟨l, rfl, rfl, rfl⟩)

@[simp] lemma capacity_store (c : LayoutCache) (format : String) (handle : Handle) :
    (c.store format handle).capacity = c.capacity := by
  unfold store
  split_ifs <;> rfl

@[simp] lemma room_store (c : LayoutCache) (format : String) (handle : Handle) :
    (c.store format handle).room = c.room := by
  unfold store
  split_ifs <;> rfl

lemma store_of_capacity_zero (hzero : c.capacity = 0) (handle : Handle) :
    c.store format handle = c := if_pos hzero

/-- A handle that is stored under a new format stands beside the others, or alone if the cache was
full. -/
lemma size_store (hpos : 0 < c.capacity) (hnew : c.get? format = none) (handle : Handle) :
    (c.store format handle).size = if c.size < c.capacity then c.size + 1 else 1 := by
  have habsent : c.entries.contains format = false := OrderedMap.get?_eq_none_iff.mp hnew
  unfold store
  rw [if_neg hpos.ne']
  by_cases hfull : c.capacity ≤ c.size
  · rw [if_pos hfull, if_neg (not_lt.mpr hfull)]
    rfl
  · rw [if_neg hfull, if_pos (not_le.mp hfull), size, OrderedMap.size_insert, habsent]
    rfl

/-- The entries after a handle was stored. -/
lemma get?_store (hpos : 0 < c.capacity) (handle : Handle) (other : String) :
    (c.store format handle).get? other =
      if other = format then some handle
      else if c.size < c.capacity then c.get? other else none := by
  unfold store
  rw [if_neg hpos.ne']
  by_cases hfull : c.capacity ≤ c.size
  · rw [if_pos hfull, if_neg (not_lt.mpr hfull), get?, OrderedMap.get?_insert,
      OrderedMap.get?_empty]
  · rw [if_neg hfull, if_pos (not_le.mp hfull), get?, OrderedMap.get?_insert]
    rfl

/-- A look-up that finds the format, or whose format does not compile, changes nothing. -/
lemma after_of_quiet
    (hquiet : c.contains format = true ∨
      ∃ fault, Layout.compileWithin c.room format = .error fault) :
    c.after (.getOrCompile format) = c := by
  rw [after]
  rcases getOrCompile_cases c format with
    ⟨handle, -, hend⟩ | ⟨fault, -, -, hend⟩ | ⟨l, hcompile, hnew, -⟩
  · rw [hend]
  · rw [hend]
  · -- A look-up that compiled a new format is none of the two kinds.
    rcases hquiet with hkept | ⟨fault, hfault⟩
    · have habsent : c.contains format = false := OrderedMap.get?_eq_none_iff.mp hnew
      rw [hkept] at habsent
      cases habsent
    · rw [hcompile] at hfault
      cases hfault

/-- The entries after a new format was compiled. -/
lemma get?_after_of_new {l : Layout} (hcompile : Layout.compileWithin c.room format = .ok l)
    (hnew : c.contains format = false) (hpos : 0 < c.capacity) (other : String) :
    (c.after (.getOrCompile format)).get? other =
      if other = format then some ⟨c.compiled, l⟩
      else if c.size < c.capacity then c.get? other else none := by
  have hnone : c.get? format = none := OrderedMap.get?_eq_none_iff.mpr hnew
  have hafter : c.after (.getOrCompile format) =
      { c with compiled := c.compiled + 1 }.store format ⟨c.compiled, l⟩ := by
    simp only [after, getOrCompile, hnone, hcompile]
  have hpos' : 0 < ({ c with compiled := c.compiled + 1 } : LayoutCache).capacity := hpos
  rw [hafter, get?_store hpos']
  rfl

/-! ## The invariant -/

/-- The cache does not exceed its capacity, and holds each format with the layout that it compiles
to. -/
structure Sound (c : LayoutCache) : Prop where
  size_le : c.size ≤ c.capacity
  entry : ∀ format handle, c.get? format = some handle →
    Layout.compileWithin c.room format = .ok handle.layout

lemma sound_within (room : Room) (capacity : ℕ) : (within room capacity).Sound where
  size_le := Nat.zero_le _
  entry := by
    intro format handle h
    cases h

lemma sound_clear (c : LayoutCache) : c.clear.Sound where
  size_le := Nat.zero_le _
  entry := by
    intro format handle h
    cases h

/-- Storing a handle under the format that its layout was compiled from keeps a cache sound. -/
lemma Sound.store (h : c.Sound) (hnew : c.get? format = none) {handle : Handle}
    (hcompile : Layout.compileWithin c.room format = .ok handle.layout) :
    (c.store format handle).Sound := by
  rcases Nat.eq_zero_or_pos c.capacity with hzero | hpos
  · rwa [store_of_capacity_zero hzero]
  · refine ⟨?_, ?_⟩
    · rw [size_store hpos hnew, capacity_store]
      split_ifs <;> omega
    · intro other found hfound
      rw [get?_store hpos] at hfound
      rw [room_store]
      split_ifs at hfound with hsame hplace
      · rw [hsame, ← Option.some.inj hfound]
        exact hcompile
      · exact h.entry other found hfound

/-- A number of compilations more or less does not matter. -/
lemma Sound.counted (h : c.Sound) (n : ℕ) : ({ c with compiled := n } : LayoutCache).Sound :=
  ⟨h.size_le, h.entry⟩

/-- **Every use keeps a cache sound.** -/
theorem Sound.after (h : c.Sound) (call : CacheCall) : (c.after call).Sound := by
  cases call with
  | getOrCompile format =>
    rw [LayoutCache.after]
    rcases getOrCompile_cases c format with
      ⟨handle, -, hend⟩ | ⟨fault, -, -, hend⟩ | ⟨l, hcompile, hnew, hend⟩
    · rwa [hend]
    · rwa [hend]
    · rw [hend]
      exact Sound.store (h.counted (c.compiled + 1)) hnew hcompile
  | get | contains => exact h
  | clear => exact sound_clear c

@[simp] lemma capacity_after (c : LayoutCache) (call : CacheCall) :
    (c.after call).capacity = c.capacity := by
  cases call with
  | getOrCompile format =>
    rw [after]
    rcases getOrCompile_cases c format with
      ⟨handle, -, hend⟩ | ⟨fault, -, -, hend⟩ | ⟨l, -, -, hend⟩ <;> simp [hend]
  | get | contains | clear => rfl

@[simp] lemma room_after (c : LayoutCache) (call : CacheCall) : (c.after call).room = c.room := by
  cases call with
  | getOrCompile format =>
    rw [after]
    rcases getOrCompile_cases c format with
      ⟨handle, -, hend⟩ | ⟨fault, -, -, hend⟩ | ⟨l, -, -, hend⟩ <;> simp [hend]
  | get | contains | clear => rfl

/-- **A cache is sound at every point of a run**, by induction on the uses so far. -/
theorem sound_run (h : c.Sound) (calls : List CacheCall) : (c.run calls).Sound := by
  induction calls generalizing c with
  | nil => exact h
  | cons call calls ih => exact ih (h.after call)

lemma capacity_run (c : LayoutCache) (calls : List CacheCall) :
    (c.run calls).capacity = c.capacity := by
  induction calls generalizing c with
  | nil => rfl
  | cons call calls ih => exact (ih (c.after call)).trans (capacity_after c call)

lemma room_run (c : LayoutCache) (calls : List CacheCall) : (c.run calls).room = c.room := by
  induction calls generalizing c with
  | nil => rfl
  | cons call calls ih => exact (ih (c.after call)).trans (room_after c call)

/-! ## Answers -/

/-- **The answer of a sound cache is that of compiling**, a kept layout or not. -/
theorem Sound.answer (h : c.Sound) (format : String) :
    (c.getOrCompile format).1.map Handle.layout = Layout.compileWithin c.room format := by
  rcases getOrCompile_cases c format with
    ⟨handle, hget, hend⟩ | ⟨fault, hcompile, -, hend⟩ | ⟨l, hcompile, -, hend⟩
  · rw [hend, h.entry format handle hget]
    rfl
  · rw [hend, hcompile]
    rfl
  · rw [hend, hcompile]
    rfl

/-- An operation on the layout of a format answers as if there were no cache. -/
theorem Sound.withLayout_eq (h : c.Sound) {α : Type} (format : String)
    (operation : Layout → Except Fault α) :
    (c.withLayout format operation).1 = afresh c.room format operation := by
  have hanswer := h.answer format
  unfold withLayout afresh
  rcases hend : c.getOrCompile format with ⟨fault | handle, c'⟩ <;> rw [hend] at hanswer
  · rw [← hanswer]
    rfl
  · rw [← hanswer]
    rfl

lemma Sound.packDatum_eq (h : c.Sound) (format : String) (d : Datum) :
    (c.packDatum format d).1 =
      d.flatten.bind fun values =>
        afresh c.room format fun l => (l.pack values).mapError .pack := by
  unfold packDatum
  cases d.flatten with
  | error fault => rfl
  | ok values => exact h.withLayout_eq format _

lemma Sound.unpackDatum_eq (h : c.Sound) (format : String) (s : Shape) (buffer : Array UInt8) :
    (c.unpackDatum format s buffer).1 =
      (afresh c.room format fun l => (l.unpack buffer).mapError .unpack).bind s.ofValues := by
  have hunpack : (c.unpack format buffer).1 =
      afresh c.room format fun l => (l.unpack buffer).mapError .unpack := h.withLayout_eq format _
  rw [← hunpack]
  unfold unpackDatum
  rcases c.unpack format buffer with ⟨fault | values, c'⟩ <;> rfl

/-- A record of the layout that a format compiles to packs and unpacks data as the format does. -/
lemma Sound.datum_eq_record (h : c.Sound) {r : Record}
    (hr : Layout.compileWithin c.room format = .ok r.layout) (d : Datum) (s : Shape)
    (buffer : Array UInt8) :
    (c.packDatum format d).1 = r.packDatum d ∧
      (c.unpackDatum format s buffer).1 = r.unpackDatum s buffer := by
  rw [h.packDatum_eq, h.unpackDatum_eq]
  constructor
  · unfold Record.packDatum
    cases d.flatten with
    | error fault => rfl
    | ok values => simp only [Except.bind, afresh, hr, Record.pack]
  · unfold Record.unpackDatum Record.unpack
    simp only [afresh, hr]
    cases r.layout.unpack buffer <;> rfl

/-- Every operation on a format at hand answers as if the format were compiled within `room` for it
alone.  Data are flattened before the format is looked at, and rebuilt after the bytes were
unpacked; where a record has the layout of the format, it answers the same. -/
structure AnswersAfresh (c : LayoutCache) (room : Room) : Prop where
  calcSize : ∀ format, (c.calcSize format).1 = afresh room format fun l => .ok l.size
  packWith : ∀ format policy values, (c.packWith format policy values).1 =
    afresh room format fun l => (l.packWith policy values).mapError .pack
  pack : ∀ format values, (c.pack format values).1 =
    afresh room format fun l => (l.pack values).mapError .pack
  unpack : ∀ format buffer, (c.unpack format buffer).1 =
    afresh room format fun l => (l.unpack buffer).mapError .unpack
  packDatum : ∀ format d, (c.packDatum format d).1 =
    d.flatten.bind fun values => afresh room format fun l => (l.pack values).mapError .pack
  unpackDatum : ∀ format s buffer, (c.unpackDatum format s buffer).1 =
    (afresh room format fun l => (l.unpack buffer).mapError .unpack).bind s.ofValues
  record : ∀ format (r : Record), Layout.compileWithin room format = .ok r.layout → ∀ d s buffer,
    (c.packDatum format d).1 = r.packDatum d ∧
      (c.unpackDatum format s buffer).1 = r.unpackDatum s buffer

theorem Sound.answersAfresh (h : c.Sound) : c.AnswersAfresh c.room where
  calcSize format := h.withLayout_eq format _
  packWith format _ _ := h.withLayout_eq format _
  pack format _ := h.withLayout_eq format _
  unpack format _ := h.withLayout_eq format _
  packDatum := h.packDatum_eq
  unpackDatum := h.unpackDatum_eq
  record _ _ hr := h.datum_eq_record hr

/-! ## Runs -/

/-- **A cache is transparent at every point of a run.**  Whatever room its layouts are kept in, and
whatever uses of a new cache came before: it does not exceed its capacity; a format that is kept has
the layout that it compiles to, under its own text; asking for a layout answers as compiling does; a
look-up that finds the format, or whose format does not compile, changes nothing, and neither does
looking without compiling; a new layout is kept from then on, beside all others if there was place
and alone if there was none; and every operation on a format at hand answers as if the format were
compiled for it alone. -/
theorem run_transparent (room : Room) (capacity : ℕ) (calls : List CacheCall) :
    let c := (within room capacity).run calls
    c.size ≤ capacity ∧
      (∀ format handle, c.get? format = some handle →
        Layout.compileWithin room format = .ok handle.layout ∧ handle.layout.format = format) ∧
      (∀ format, (c.getOrCompile format).1.map Handle.layout = Layout.compileWithin room format) ∧
      (∀ format, c.contains format = true ∨
          (∃ fault, Layout.compileWithin room format = .error fault) →
        c.after (.getOrCompile format) = c) ∧
      (∀ format, c.after (.get format) = c ∧ c.after (.contains format) = c) ∧
      (∀ format l, Layout.compileWithin room format = .ok l → c.contains format = false →
        0 < capacity →
        (∃ handle, handle.layout = l ∧
          (c.after (.getOrCompile format)).get? format = some handle) ∧
        (c.size < capacity ∧
            (∀ other ≠ format, (c.after (.getOrCompile format)).get? other = c.get? other) ∨
          c.size = capacity ∧
            ∀ other ≠ format, (c.after (.getOrCompile format)).get? other = none)) ∧
      c.AnswersAfresh room := by
  intro c
  have hsound : c.Sound := sound_run (sound_within room capacity) calls
  have hroom : c.room = room := room_run (within room capacity) calls
  have hcapacity : c.capacity = capacity := capacity_run (within room capacity) calls
  -- Of the run no more is needed than this.
  clear_value c
  subst hroom hcapacity
  refine ⟨hsound.size_le, ?_, hsound.answer, ?_, ?_, ?_, hsound.answersAfresh⟩
  · intro format handle hget
    have hcompile := hsound.entry format handle hget
    exact ⟨hcompile, Layout.format_of_compile hcompile⟩
  · intro format hquiet
    exact after_of_quiet hquiet
  · intro format
    exact ⟨rfl, rfl⟩
  · intro format l hcompile hnew hpos
    have hget := get?_after_of_new hcompile hnew hpos
    refine ⟨⟨⟨c.compiled, l⟩, rfl, by rw [hget, if_pos rfl]⟩, ?_⟩
    rcases Nat.lt_or_eq_of_le hsound.size_le with hplace | hfull
    · refine Or.inl ⟨hplace, ?_⟩
      intro other hother
      rw [hget, if_neg hother, if_pos hplace]
    · refine Or.inr ⟨hfull, ?_⟩
      intro other hother
      rw [hget, if_neg hother, if_neg hfull.not_lt]

end LayoutCache

end PackedRecord
