import Mathlib
import PackedRecord.Proofs.Cache.Transparency

/-!
# Which handles are the same

A handle has the number of the compilation that its layout comes from, and two handles are the same
object when their numbers agree.  The layouts themselves are never touched again: all that are
compiled in the course of a run are listed by `LayoutCache.allocated`, each at the place of its
number, and a list of that kind only grows.  A handle leads to its layout there, at the time it is
handed out and ever after (`Owns.answer`, `Owns.run`), whatever becomes of the cache.

Two answers for a format are the same handle exactly when nothing has emptied the cache between
them.  What empties it is said by `Resets`, without reference to the entries that are lost:
`clear`, and a look-up that compiles a new format and finds no place for it.  In one direction a
kept handle stays kept through any other use (`get?_run_of_undisturbed`).  In the other, whatever
is kept after the cache was emptied is younger than all handles before (`Recent`), and stays so.

Both invariants are preserved by every use.  What a use can do is said once, by `use_cases`; of this
they need only that what is handed out was kept or is new (`answer?_cases`), and that what is kept
afterwards was kept before or has been handed out (`get?_after_cases`).
-/

namespace PackedRecord

namespace LayoutCache

variable {c : LayoutCache} {call : CacheCall} {calls : List CacheCall} {format : String}
  {handle : Handle} {layouts : List Layout} {n : ℕ}

/-! ## What a use does -/

/-- The handle that a use hands out. -/
def answer? (c : LayoutCache) : CacheCall → Option Handle
  | .getOrCompile format => (c.getOrCompile format).1.toOption
  | .get format => c.get? format
  | .contains _ => none
  | .clear => none

/-- The layout that a use compiles. -/
def layout? (c : LayoutCache) : CacheCall → Option Layout
  | .getOrCompile format =>
    if c.contains format then none else (Layout.compileWithin c.room format).toOption
  | .get _ => none
  | .contains _ => none
  | .clear => none

/-- The layouts that are compiled in a run, in order. -/
def allocated (c : LayoutCache) : List CacheCall → List Layout
  | [] => []
  | call :: calls => (c.layout? call).toList ++ (c.after call).allocated calls

/-- **What a use can do.**  It leaves the cache alone and hands out at most what is kept; or it
clears the cache; or it compiles a new format, hands out the layout under the next number, and
stores it. -/
theorem use_cases (c : LayoutCache) (call : CacheCall) :
    (c.after call = c ∧ c.layout? call = none ∧
        ∀ handle, c.answer? call = some handle → ∃ format, c.get? format = some handle) ∨
      (call = .clear ∧ c.after call = c.clear ∧ c.layout? call = none ∧ c.answer? call = none) ∨
      ∃ format l, call = .getOrCompile format ∧ Layout.compileWithin c.room format = .ok l ∧
        c.contains format = false ∧ c.layout? call = some l ∧
        c.answer? call = some ⟨c.compiled, l⟩ ∧
        c.after call = { c with compiled := c.compiled + 1 }.store format ⟨c.compiled, l⟩ := by
  cases call with
  | getOrCompile format =>
    rcases getOrCompile_cases c format with
      ⟨handle, hget, hend⟩ | ⟨fault, hcompile, hnew, hend⟩ | ⟨l, hcompile, hnew, hend⟩
    · have hkept : c.contains format = true := by
        by_contra habsent
        rw [Bool.not_eq_true] at habsent
        have hnone : c.get? format = none := OrderedMap.get?_eq_none_iff.mpr habsent
        rw [hget] at hnone
        cases hnone
      refine Or.inl ⟨by rw [after, hend], by rw [layout?, if_pos hkept], ?_⟩
      intro other hother
      rw [answer?, hend] at hother
      exact ⟨format, hget.trans hother⟩
    · refine Or.inl ⟨by rw [after, hend], ?_, ?_⟩
      · rw [layout?, hcompile]
        exact ite_self none
      · intro other hother
        rw [answer?, hend] at hother
        cases hother
    · have habsent : c.contains format = false := OrderedMap.get?_eq_none_iff.mp hnew
      refine Or.inr (Or.inr ⟨format, l, rfl, hcompile, habsent, ?_, ?_, ?_⟩)
      · rw [layout?, habsent, if_neg Bool.false_ne_true, hcompile]
        rfl
      · rw [answer?, hend]
        rfl
      · rw [after, hend]
  | get format => exact Or.inl ⟨rfl, rfl, fun handle h => ⟨format, h⟩⟩
  | contains format =>
    refine Or.inl ⟨rfl, rfl, ?_⟩
    intro handle h
    rw [answer?] at h
    cases h
  | clear => exact Or.inr (Or.inl ⟨rfl, rfl, rfl, rfl⟩)

@[simp] lemma compiled_store (c : LayoutCache) (format : String) (handle : Handle) :
    (c.store format handle).compiled = c.compiled := by
  unfold store
  split_ifs <;> rfl

/-- What is kept after a handle was stored is that handle or was kept before. -/
lemma get?_of_store {other : Handle} {format' : String}
    (h : (c.store format handle).get? format' = some other) :
    other = handle ∨ c.get? format' = some other := by
  rcases Nat.eq_zero_or_pos c.capacity with hzero | hpos
  · rw [store_of_capacity_zero hzero] at h
    exact Or.inr h
  · rw [get?_store hpos] at h
    split_ifs at h
    · exact Or.inl (Option.some.inj h).symm
    · exact Or.inr h

lemma get?_clear (c : LayoutCache) (format : String) : c.clear.get? format = none := rfl

/-- What a use hands out was kept, or is the layout that it has compiled, under the next number. -/
lemma answer?_cases (h : c.answer? call = some handle) :
    (∃ format, c.get? format = some handle) ∨
      ∃ l, c.layout? call = some l ∧ handle = ⟨c.compiled, l⟩ := by
  rcases use_cases c call with
    ⟨-, -, hkept⟩ | ⟨-, -, -, hnone⟩ | ⟨format, l, -, -, -, hlayout, hnew, -⟩
  · exact Or.inl (hkept handle h)
  · rw [hnone] at h
    cases h
  · rw [hnew] at h
    exact Or.inr ⟨l, hlayout, (Option.some.inj h).symm⟩

/-- What is kept after a use was kept before it, or is what it hands out. -/
lemma get?_after_cases (h : (c.after call).get? format = some handle) :
    c.get? format = some handle ∨ c.answer? call = some handle := by
  rcases use_cases c call with
    ⟨hafter, -, -⟩ | ⟨-, hafter, -, -⟩ | ⟨other, l, -, -, -, -, hnew, hafter⟩
  · rw [hafter] at h
    exact Or.inl h
  · rw [hafter, get?_clear] at h
    cases h
  · rw [hafter] at h
    rcases get?_of_store h with rfl | hkept
    · exact Or.inr hnew
    · exact Or.inl hkept

/-- A new layout takes the next number, and no other use takes one. -/
lemma compiled_after (c : LayoutCache) (call : CacheCall) :
    (c.after call).compiled = c.compiled + (c.layout? call).toList.length := by
  rcases use_cases c call with
    ⟨hafter, hlayout, -⟩ | ⟨-, hafter, hlayout, -⟩ | ⟨format, l, -, -, -, hlayout, -, hafter⟩
  · rw [hafter, hlayout]
    rfl
  · rw [hafter, hlayout]
    rfl
  · rw [hafter, hlayout, compiled_store]
    rfl

lemma compiled_le_run (c : LayoutCache) (calls : List CacheCall) :
    c.compiled ≤ (c.run calls).compiled := by
  induction calls generalizing c with
  | nil => exact le_rfl
  | cons call calls ih =>
    have hfirst := compiled_after c call
    have hrest := ih (c.after call)
    exact le_trans (by omega) hrest

lemma run_append (c : LayoutCache) (before later : List CacheCall) :
    c.run (before ++ later) = (c.run before).run later := List.foldl_append

lemma run_cons (c : LayoutCache) (call : CacheCall) (calls : List CacheCall) :
    c.run (call :: calls) = (c.after call).run calls := rfl

lemma allocated_append (c : LayoutCache) (before later : List CacheCall) :
    c.allocated (before ++ later) = c.allocated before ++ (c.run before).allocated later := by
  induction before generalizing c with
  | nil => rfl
  | cons call before ih =>
    rw [List.cons_append, allocated, allocated, ih, run_cons, List.append_assoc]

/-! ## Handles lead to their layouts -/

/-- The layouts that were compiled are listed, and the handles that are kept lead to theirs. -/
structure Owns (c : LayoutCache) (layouts : List Layout) : Prop where
  length_eq : layouts.length = c.compiled
  entry : ∀ format handle, c.get? format = some handle →
    layouts[handle.id]? = some handle.layout

lemma owns_within (room : Room) (capacity : ℕ) : (within room capacity).Owns [] where
  length_eq := rfl
  entry := by
    intro format handle h
    cases h

namespace Owns

/-- What is found in a list is found in a longer one. -/
lemma getElem?_append_of_some {l : Layout} {k : ℕ} (h : layouts[k]? = some l)
    (more : List Layout) : (layouts ++ more)[k]? = some l := by
  obtain ⟨hlt, -⟩ := List.getElem?_eq_some_iff.mp h
  rwa [List.getElem?_append_left hlt]

/-- The next number leads to the layout that is compiled next. -/
lemma getElem?_next (h : c.Owns layouts) (l : Layout) :
    (layouts ++ [l])[c.compiled]? = some l := by
  rw [← h.length_eq, List.getElem?_concat_length]

/-- A handle leads to its layout when it is handed out. -/
theorem answer (h : c.Owns layouts) (hanswer : c.answer? call = some handle) :
    (layouts ++ (c.layout? call).toList)[handle.id]? = some handle.layout := by
  rcases answer?_cases hanswer with ⟨format, hkept⟩ | ⟨l, hlayout, rfl⟩
  · exact getElem?_append_of_some (h.entry format handle hkept) _
  · rw [hlayout]
    exact h.getElem?_next l

/-- **Every use lets the kept handles lead to their layouts.** -/
theorem after (h : c.Owns layouts) (call : CacheCall) :
    (c.after call).Owns (layouts ++ (c.layout? call).toList) := by
  refine ⟨by rw [List.length_append, h.length_eq, compiled_after], ?_⟩
  intro format handle hget
  rcases get?_after_cases hget with hkept | hanswer
  · exact getElem?_append_of_some (h.entry format handle hkept) _
  · exact h.answer hanswer

/-- Kept handles lead to their layouts at every point of a run, by induction on the uses so far. -/
theorem run (h : c.Owns layouts) (calls : List CacheCall) :
    (c.run calls).Owns (layouts ++ c.allocated calls) := by
  induction calls generalizing c layouts with
  | nil => rwa [allocated, List.append_nil]
  | cons call calls ih =>
    rw [allocated, ← List.append_assoc]
    exact ih (h.after call)

/-- A handle that was handed out has one of the numbers that were given. -/
lemma id_lt (h : c.Owns layouts) (hanswer : c.answer? call = some handle) :
    handle.id < (c.after call).compiled := by
  obtain ⟨hlt, -⟩ := List.getElem?_eq_some_iff.mp (h.answer hanswer)
  rwa [(h.after call).length_eq] at hlt

end Owns

/-! ## Emptying the cache -/

/-- A use empties the cache: it clears it, or it compiles a format for which there is no place. -/
def Resets (c : LayoutCache) : CacheCall → Prop
  | .getOrCompile format =>
    c.contains format = false ∧ (∃ l, Layout.compileWithin c.room format = .ok l) ∧
      c.capacity ≤ c.size
  | .get _ => False
  | .contains _ => False
  | .clear => True

/-- No use of a run empties the cache. -/
def Undisturbed (c : LayoutCache) (calls : List CacheCall) : Prop :=
  ∀ earlier call later, calls = earlier ++ call :: later → ¬ (c.run earlier).Resets call

lemma Undisturbed.head (h : c.Undisturbed (call :: calls)) : ¬ c.Resets call :=
  h [] call calls rfl

lemma Undisturbed.tail (h : c.Undisturbed (call :: calls)) : (c.after call).Undisturbed calls := by
  intro earlier other later hsplit
  exact h (call :: earlier) other later (congrArg (call :: ·) hsplit)

/-- A handle stays kept through a use that does not empty the cache. -/
lemma get?_after_of_not_resets (hpos : 0 < c.capacity) (hkept : c.get? format = some handle)
    (h : ¬ c.Resets call) : (c.after call).get? format = some handle := by
  rcases use_cases c call with
    ⟨hafter, -, -⟩ | ⟨rfl, -, -, -⟩ | ⟨other, l, rfl, hcompile, hnew, -, -, -⟩
  · rwa [hafter]
  · exact absurd trivial h
  · have hroom : c.size < c.capacity := by
      by_contra hfull
      exact h ⟨hnew, ⟨l, hcompile⟩, not_lt.mp hfull⟩
    have hne : format ≠ other := by
      rintro rfl
      have hnone : c.get? format = none := OrderedMap.get?_eq_none_iff.mpr hnew
      rw [hkept] at hnone
      cases hnone
    rwa [get?_after_of_new hcompile hnew hpos, if_neg hne, if_pos hroom]

/-- **A handle stays kept as long as nothing empties the cache**, by induction on the uses. -/
theorem get?_run_of_undisturbed (hpos : 0 < c.capacity) (hkept : c.get? format = some handle)
    (h : c.Undisturbed calls) : (c.run calls).get? format = some handle := by
  induction calls generalizing c with
  | nil => exact hkept
  | cons call calls ih =>
    have hpos' : 0 < (c.after call).capacity := by rwa [capacity_after]
    exact ih hpos' (get?_after_of_not_resets hpos hkept h.head) h.tail

/-- The numbers below `n` were given before, and none of the kept handles has one of them. -/
structure Recent (n : ℕ) (c : LayoutCache) : Prop where
  le_compiled : n ≤ c.compiled
  le_id : ∀ format handle, c.get? format = some handle → n ≤ handle.id

/-- When the cache was emptied, all that is kept is younger than what was handed out before. -/
lemma recent_of_resets (hpos : 0 < c.capacity) (h : c.Resets call) :
    (c.after call).Recent c.compiled := by
  refine ⟨(compiled_after c call).ge.trans' (Nat.le_add_right _ _), ?_⟩
  intro format' other hother
  cases call with
  | getOrCompile format =>
    obtain ⟨hnew, ⟨l, hcompile⟩, hfull⟩ := h
    rw [get?_after_of_new hcompile hnew hpos, if_neg hfull.not_gt] at hother
    split_ifs at hother
    rw [← Option.some.inj hother]
  | clear => cases hother
  | get | contains => cases h

namespace Recent

/-- A use hands out nothing old. -/
lemma answer (h : c.Recent n) (hanswer : c.answer? call = some handle) : n ≤ handle.id := by
  rcases answer?_cases hanswer with ⟨format, hkept⟩ | ⟨l, -, rfl⟩
  · exact h.le_id format handle hkept
  · exact h.le_compiled

/-- A use lets nothing old come back. -/
lemma after (h : c.Recent n) (call : CacheCall) : (c.after call).Recent n := by
  refine ⟨?_, ?_⟩
  · rw [compiled_after]
    exact h.le_compiled.trans (Nat.le_add_right _ _)
  · intro format handle hget
    rcases get?_after_cases hget with hkept | hanswer
    · exact h.le_id format handle hkept
    · exact h.answer hanswer

/-- Nothing old comes back in a run, by induction on the uses. -/
theorem run (h : c.Recent n) (calls : List CacheCall) : (c.run calls).Recent n := by
  induction calls generalizing c with
  | nil => exact h
  | cons call calls ih => exact ih (h.after call)

end Recent

/-! ## The same handle or another -/

lemma answer?_of_ok (h : (c.getOrCompile format).1 = .ok handle) :
    c.answer? (.getOrCompile format) = some handle := by
  rw [answer?, h]
  rfl

/-- A cache with capacity keeps what it hands out on a look-up. -/
lemma get?_after_of_ok (hpos : 0 < c.capacity) (h : (c.getOrCompile format).1 = .ok handle) :
    (c.after (.getOrCompile format)).get? format = some handle := by
  rcases getOrCompile_cases c format with
    ⟨kept, hget, hend⟩ | ⟨fault, -, -, hend⟩ | ⟨l, hcompile, hnew, hend⟩
  · rw [hend] at h
    rw [after, hend, hget, Except.ok.inj h]
  · rw [hend] at h
    cases h
  · rw [hend] at h
    rw [get?_after_of_new hcompile (OrderedMap.get?_eq_none_iff.mp hnew) hpos, if_pos rfl,
      Except.ok.inj h]

/-- A kept handle is what a look-up answers. -/
lemma getOrCompile_of_kept (h : c.get? format = some handle) :
    (c.getOrCompile format).1 = .ok handle := by
  simp only [getOrCompile, h]

/-- **Two look-ups of a format answer with the same handle exactly if nothing has emptied the cache
between them.** -/
theorem id_eq_iff_undisturbed (howns : c.Owns layouts) (hpos : 0 < c.capacity)
    {between : List CacheCall} {first second : Handle}
    (hfirst : (c.getOrCompile format).1 = .ok first)
    (hsecond : (((c.after (.getOrCompile format)).run between).getOrCompile format).1 =
      .ok second) :
    first.id = second.id ↔ (c.after (.getOrCompile format)).Undisturbed between := by
  have hpos' : 0 < (c.after (.getOrCompile format)).capacity := by rwa [capacity_after]
  constructor
  · rintro hid earlier call later rfl hresets
    have hlt : first.id < ((c.after (.getOrCompile format)).run earlier).compiled :=
      lt_of_lt_of_le (howns.id_lt (answer?_of_ok hfirst)) (compiled_le_run _ earlier)
    -- What is handed out after the cache was emptied is younger than the first handle.
    have hrecent := recent_of_resets (by rwa [capacity_run]) hresets
    rw [run_append, run_cons] at hsecond
    have hle := (hrecent.run later).answer (answer?_of_ok hsecond)
    omega
  · intro hquiet
    have hkept := get?_run_of_undisturbed hpos' (get?_after_of_ok hpos hfirst) hquiet
    rw [getOrCompile_of_kept hkept] at hsecond
    rw [Except.ok.inj hsecond]

/-- Without capacity every look-up gives its layout the next number. -/
lemma id_of_capacity_zero (hsound : c.Sound) (hzero : c.capacity = 0)
    (h : (c.getOrCompile format).1 = .ok handle) : handle.id = c.compiled := by
  have hempty : c.entries.toList = [] := by
    apply List.length_eq_zero_iff.mp
    have hle := hsound.size_le
    rw [hzero] at hle
    exact Nat.le_zero.mp hle
  have hnone : c.get? format = none := by
    rw [get?, OrderedMap.get?, hempty]
    rfl
  rcases getOrCompile_cases c format with
    ⟨kept, hget, -⟩ | ⟨fault, -, -, hend⟩ | ⟨l, -, -, hend⟩
  · rw [hnone] at hget
    cases hget
  · rw [hend] at h
    cases h
  · rw [hend] at h
    rw [← Except.ok.inj h]

/-- What a use hands out for a format is the layout that the format compiles to. -/
lemma Sound.layout_of_answer (h : c.Sound)
    (hcall : call = .getOrCompile format ∨ call = .get format)
    (hanswer : c.answer? call = some handle) :
    Layout.compileWithin c.room format = .ok handle.layout := by
  rcases hcall with rfl | rfl
  · have hcompile := h.answer format
    change (c.getOrCompile format).1.toOption = some handle at hanswer
    cases hend : (c.getOrCompile format).1 with
    | error fault =>
      rw [hend] at hanswer
      cases hanswer
    | ok found =>
      rw [hend] at hanswer hcompile
      rw [← Option.some.inj hanswer]
      exact hcompile.symm
  · exact h.entry format handle hanswer

/-- **Handles are the same as long as nothing empties the cache, and stay good when something
does.**  Let the layouts be kept in any room.  In a run of a cache with capacity, two look-ups of a
format that succeed have the same handle exactly if no use between them empties the cache.  Without
capacity, each has a handle that was not handed out before.  And what a handle leads to, at any
later point of the run, is the layout that it was handed out with, which the format compiles to; so
that packing through the handle is packing with the format. -/
theorem handles_of_run (room : Room) (capacity : ℕ) :
    (0 < capacity → ∀ before format between first second,
      (((within room capacity).run before).getOrCompile format).1 = .ok first →
      (((within room capacity).run (before ++ .getOrCompile format :: between)).getOrCompile
        format).1 = .ok second →
      (first.id = second.id ↔
        ((within room capacity).run (before ++ [.getOrCompile format])).Undisturbed between)) ∧
      (capacity = 0 → ∀ earlier call later other format handle,
        ((within room capacity).run earlier).answer? call = some other →
        (((within room capacity).run (earlier ++ call :: later)).getOrCompile format).1 =
          .ok handle →
        handle.id ≠ other.id) ∧
      ∀ before call format later handle, call = .getOrCompile format ∨ call = .get format →
        ((within room capacity).run before).answer? call = some handle →
        ∃ l, ((within room capacity).allocated (before ++ call :: later))[handle.id]? = some l ∧
          handle.layout = l ∧ Layout.compileWithin room format = .ok l ∧
          ∀ policy values, (l.packWith policy values).mapError .pack =
            afresh room format fun l => (l.packWith policy values).mapError .pack := by
  have hsound := sound_run (sound_within room capacity)
  have howns (calls : List CacheCall) :
      ((within room capacity).run calls).Owns ((within room capacity).allocated calls) :=
    (owns_within room capacity).run calls
  have hcapacity := capacity_run (within room capacity)
  refine ⟨?_, ?_, ?_⟩
  · intro hpos before format between first second hfirst hsecond
    rw [run_append, run_cons] at hsecond
    rw [run_append]
    apply id_eq_iff_undisturbed (howns before) _ hfirst hsecond
    rw [hcapacity]
    exact hpos
  · intro hzero earlier call later other format handle hother hhandle
    have hlt := (howns earlier).id_lt hother
    have hle := compiled_le_run (((within room capacity).run earlier).after call) later
    have hid := id_of_capacity_zero (hsound _) ((hcapacity _).trans hzero) hhandle
    rw [run_append, run_cons] at hid
    omega
  · intro before call format later handle hcall hanswer
    have hcompile : Layout.compileWithin room format = .ok handle.layout := by
      rw [← (hsound before).layout_of_answer hcall hanswer, room_run]
      rfl
    refine ⟨handle.layout, ?_, rfl, hcompile, ?_⟩
    · rw [allocated_append, allocated, ← List.append_assoc]
      exact Owns.getElem?_append_of_some ((howns before).answer hanswer) _
    · intro policy values
      simp only [afresh, hcompile]

/-- Between two look-ups of a format: a format that does not compile and one that finds place, and
then two of which the second finds none. -/
theorem handles_of_run_overflow :
    ((withCapacity 2).run [.getOrCompile "B"]).Undisturbed
        [.getOrCompile "z", .getOrCompile "H"] ∧
      ¬ ((withCapacity 2).run [.getOrCompile "B"]).Undisturbed
        [.getOrCompile "H", .getOrCompile "I"] := by
  constructor
  · exact ((handles_of_run .standard 2).1 (by decide) [] "B" [.getOrCompile "z", .getOrCompile "H"]
      ⟨0, .ofFields "B" [⟨.uint8, 1⟩]⟩ ⟨0, .ofFields "B" [⟨.uint8, 1⟩]⟩ (by decide +kernel)
      (by decide +kernel)).mp rfl
  · intro hquiet
    have hid := ((handles_of_run .standard 2).1 (by decide) [] "B"
      [.getOrCompile "H", .getOrCompile "I"] ⟨0, .ofFields "B" [⟨.uint8, 1⟩]⟩
      ⟨3, .ofFields "B" [⟨.uint8, 1⟩]⟩ (by decide +kernel) (by decide +kernel)).mpr hquiet
    cases hid

end LayoutCache

end PackedRecord
