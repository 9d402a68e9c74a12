import Mathlib
import PackedRecord.Proofs.Cache.Identity

/-!
# What a cache holds

A cache has no order of eviction.  It takes new layouts until it is full, and the next one makes it
forget all others.  So it holds the layouts of the round under way, and these are the last ones that
were compiled: as many as are left over when the others are divided into rounds of the capacity.
How many these are depends on the number of compilations alone (`heldOf`), and a compilation adds
one of them or begins a new round (`heldOf_succ`).

The invariant is that the formats in the cache, in order, are the last so many of the formats that
were compiled (`Current`).  Every use but `clear` keeps it (`Current.after`), since a use that
compiles nothing leaves the cache alone, and so does every run without `clear` (`Current.run`).
-/

namespace PackedRecord

namespace LayoutCache

variable {c : LayoutCache} {call : CacheCall} {calls : List CacheCall} {format : String}
  {formats : List String}

/-! ## The formats that were compiled -/

/-- The formats that are compiled in a run, in order: those of the look-ups that do not find their
format kept, if it compiles. -/
def missed (c : LayoutCache) (calls : List CacheCall) : List String :=
  (c.allocated calls).map Layout.format

lemma missed_cons (c : LayoutCache) (call : CacheCall) (calls : List CacheCall) :
    c.missed (call :: calls) =
      (c.layout? call).toList.map Layout.format ++ (c.after call).missed calls :=
  List.map_append

lemma missed_append_singleton (c : LayoutCache) (calls : List CacheCall) (call : CacheCall) :
    c.missed (calls ++ [call]) =
      c.missed calls ++ ((c.run calls).layout? call).toList.map Layout.format := by
  rw [missed, allocated_append, List.map_append]
  simp [missed, allocated]

/-- A look-up that finds its format compiles nothing, and neither does one of no format. -/
lemma layout?_of_quiet
    (hquiet : c.contains format = true ∨
      ∃ fault, Layout.compileWithin c.room format = .error fault) :
    c.layout? (.getOrCompile format) = none := by
  rcases hquiet with hkept | ⟨fault, hfault⟩
  · rw [layout?, if_pos hkept]
  · rw [layout?, hfault]
    exact ite_self none

lemma layout?_of_new {l : Layout} (hcompile : Layout.compileWithin c.room format = .ok l)
    (hnew : c.contains format = false) : c.layout? (.getOrCompile format) = some l := by
  rw [layout?, hnew, if_neg Bool.false_ne_true, hcompile]
  rfl

/-! ## Rounds -/

/-- How many of `n` layouts that were compiled one after the other are still held. -/
def heldOf (capacity n : ℕ) : ℕ :=
  if n = 0 then 0 else (n - 1) % capacity + 1

lemma heldOf_le (capacity n : ℕ) : heldOf capacity n ≤ n := by
  unfold heldOf
  split
  · exact Nat.zero_le n
  · have hle := Nat.mod_le (n - 1) capacity
    omega

/-- One more layout is held beside the others, or by itself when a round is complete. -/
lemma heldOf_succ {capacity : ℕ} (hpos : 0 < capacity) (n : ℕ) :
    heldOf capacity (n + 1) =
      if heldOf capacity n < capacity then heldOf capacity n + 1 else 1 := by
  cases n with
  | zero => simp [heldOf, hpos]
  | succ n =>
    have hlt := Nat.mod_lt n hpos
    simp only [heldOf, Nat.add_one_ne_zero, if_false, Nat.add_sub_cancel]
    by_cases hround : n % capacity + 1 < capacity
    · rw [if_pos hround, Nat.add_mod_eq_ite, Nat.mod_eq_of_lt (by omega : 1 < capacity),
        if_neg (by omega)]
    · have hlast : n % capacity + 1 = capacity := by omega
      rw [if_neg hround, ← Nat.mod_add_mod, hlast, Nat.mod_self]

/-! ## The invariant -/

/-- The formats in the cache are the last ones of those that were compiled. -/
def Current (c : LayoutCache) (formats : List String) : Prop :=
  c.entries.keys = formats.rtake (heldOf c.capacity formats.length)

/-- The formats after a handle was stored under a new one. -/
lemma keys_store (hpos : 0 < c.capacity) (hnew : c.get? format = none) (handle : Handle) :
    (c.store format handle).entries.keys =
      if c.size < c.capacity then c.entries.keys ++ [format] else [format] := by
  have habsent : c.entries.contains format = false := OrderedMap.get?_eq_none_iff.mp hnew
  unfold store
  rw [if_neg hpos.ne']
  by_cases hfull : c.capacity ≤ c.size
  · rw [if_pos hfull, if_neg (not_lt.mpr hfull)]
    rfl
  · rw [if_neg hfull, if_pos (not_le.mp hfull), OrderedMap.keys_insert, habsent]
    rfl

lemma length_keys (c : LayoutCache) : c.entries.keys.length = c.size := List.length_map _

lemma current_of_isEmpty (hempty : c.isEmpty = true) : c.Current [] := by
  have hlist : c.entries.toList = [] := List.isEmpty_iff.mp hempty
  simp [Current, OrderedMap.keys, hlist]

namespace Current

/-- The size of a cache is decided by how many formats were compiled. -/
lemma size_eq (h : c.Current formats) : c.size = heldOf c.capacity formats.length := by
  have hle := heldOf_le c.capacity formats.length
  rw [← length_keys, h, List.rtake, List.length_drop]
  omega

/-- One more format is compiled and stored. -/
lemma store (h : c.Current formats) (hpos : 0 < c.capacity) (hnew : c.get? format = none)
    (handle : Handle) : (c.store format handle).Current (formats ++ [format]) := by
  rw [Current, keys_store hpos hnew, capacity_store, h.size_eq, List.length_append,
    List.length_singleton, heldOf_succ hpos]
  split
  · rw [List.rtake_concat_succ, h]
  · rw [List.rtake_concat_succ, List.rtake_zero, List.nil_append]

/-- **Every use but `clear` keeps the cache current.** -/
theorem after (h : c.Current formats) (hpos : 0 < c.capacity) (hclear : call ≠ .clear) :
    (c.after call).Current (formats ++ (c.layout? call).toList.map Layout.format) := by
  rcases use_cases c call with
    ⟨hafter, hlayout, -⟩ | ⟨hcall, -, -, -⟩ | ⟨format, l, -, hcompile, hnew, hlayout, -, hafter⟩
  · rw [hafter, hlayout]
    simpa using h
  · exact absurd hcall hclear
  · rw [hafter, hlayout]
    have hcounted : ({ c with compiled := c.compiled + 1 } : LayoutCache).Current formats := h
    have hstored := hcounted.store hpos (OrderedMap.get?_eq_none_iff.mpr hnew) ⟨c.compiled, l⟩
    rw [← Layout.format_of_compile hcompile] at hstored
    rwa [← Layout.format_of_compile hcompile]

/-- A cache is current at every point of a run without `clear`, by induction on the uses so far. -/
theorem run (h : c.Current formats) (hpos : 0 < c.capacity) (hclear : .clear ∉ calls) :
    (c.run calls).Current (formats ++ c.missed calls) := by
  induction calls generalizing c formats with
  | nil =>
    rw [missed, allocated, List.map_nil, List.append_nil]
    exact h
  | cons call calls ih =>
    obtain ⟨hfirst, hrest⟩ := not_or.mp (List.mem_cons.not.mp hclear)
    rw [missed_cons, ← List.append_assoc]
    exact ih (h.after hpos (Ne.symm hfirst)) (by rwa [capacity_after]) hrest

end Current

/-- **What a cache holds after any look-ups.**  If formats were compiled since the cache was empty,
the last ones of them are held, as many as are left of the last round, and no two of these are the
same.  A look-up that finds its format, or whose format does not compile, changes neither the cache
nor what was compiled; any other one adds its format to what was compiled. -/
theorem contents_of_run (c : LayoutCache) (hpos : 0 < c.capacity) (hempty : c.isEmpty = true)
    (calls : List CacheCall) (hclear : .clear ∉ calls) :
    let k := (c.missed calls).length
    let held := (c.missed calls).rtake ((k - 1) % c.capacity + 1)
    (1 ≤ k → (c.run calls).size = (k - 1) % c.capacity + 1 ∧
        (∀ format, (c.run calls).contains format = true ↔ format ∈ held) ∧ held.Nodup) ∧
      (k = 0 → (c.run calls).size = 0) ∧
      (∀ format, (c.run calls).contains format = true ∨
          (∃ fault, Layout.compileWithin c.room format = .error fault) →
        c.run (calls ++ [.getOrCompile format]) = c.run calls ∧
          c.missed (calls ++ [.getOrCompile format]) = c.missed calls) ∧
      ∀ format l, Layout.compileWithin c.room format = .ok l →
        (c.run calls).contains format = false →
        c.missed (calls ++ [.getOrCompile format]) = c.missed calls ++ [format] := by
  intro k held
  have hcurrent : (c.run calls).Current (c.missed calls) :=
    (current_of_isEmpty hempty).run hpos hclear
  have hsize := hcurrent.size_eq
  rw [Current, capacity_run] at hcurrent
  rw [capacity_run] at hsize
  refine ⟨?_, ?_, ?_, ?_⟩
  · intro hk
    have hheld : heldOf c.capacity k = (k - 1) % c.capacity + 1 := if_neg (by omega)
    have hkeys : (c.run calls).entries.keys = held := hcurrent.trans (congrArg _ hheld)
    refine ⟨hsize.trans hheld, ?_, ?_⟩
    · intro format
      rw [← hkeys]
      exact OrderedMap.contains_iff
    · rw [← hkeys]
      exact (c.run calls).entries.nodup
  · intro hk
    exact hsize.trans (if_pos hk)
  · intro format hquiet
    rw [← room_run c calls] at hquiet
    rw [run_append, run_cons, after_of_quiet hquiet, missed_append_singleton,
      layout?_of_quiet hquiet]
    exact ⟨rfl, List.append_nil _⟩
  · intro format l hcompile hnew
    rw [← room_run c calls] at hcompile
    rw [missed_append_singleton, layout?_of_new hcompile hnew, ← Layout.format_of_compile hcompile]
    rfl

/-- A cache for two layouts, just cleared, that is filled twice: a text that is no format, a format
that is kept, and looking for one count for nothing, and a format that was forgotten is compiled
again. -/
theorem contents_of_run_refilled :
    ((withCapacity 2).run [.getOrCompile "I"]).clear.missed [.getOrCompile "B", .getOrCompile "z",
        .getOrCompile "H", .getOrCompile "B", .contains "I", .getOrCompile "I", .getOrCompile "B"] =
      ["B", "H", "I", "B"] ∧
    ∀ format, (((withCapacity 2).run [.getOrCompile "I"]).clear.run [.getOrCompile "B",
        .getOrCompile "z", .getOrCompile "H", .getOrCompile "B", .contains "I", .getOrCompile "I",
        .getOrCompile "B"]).contains format = true ↔ format ∈ ["I", "B"] := by
  have hmissed : ((withCapacity 2).run [.getOrCompile "I"]).clear.missed [.getOrCompile "B",
      .getOrCompile "z", .getOrCompile "H", .getOrCompile "B", .contains "I", .getOrCompile "I",
      .getOrCompile "B"] = ["B", "H", "I", "B"] := by decide +kernel
  obtain ⟨hheld, -⟩ := contents_of_run ((withCapacity 2).run [.getOrCompile "I"]).clear
    (by decide +kernel) rfl [.getOrCompile "B", .getOrCompile "z", .getOrCompile "H",
      .getOrCompile "B", .contains "I", .getOrCompile "I", .getOrCompile "B"] (by simp)
  rw [hmissed] at hheld
  exact ⟨hmissed, (hheld (by decide)).2.1⟩

end LayoutCache

end PackedRecord
