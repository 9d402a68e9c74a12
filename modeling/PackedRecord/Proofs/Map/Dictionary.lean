import Mathlib
import PackedRecord.Value
import PackedRecord.Proofs.Map.Entries

/-!
# Ordered maps as dictionaries

A map is told by two views: the order of its names, and the value under each name.  A step (a value
is inserted, an entry removed, or the map replaced by one collected from entries) acts on each view
without regard to the other, and what it does there can be said without the map: `MapStep.names` and
`MapStep.value?`.  So a whole run is known from its steps (`keys_run`, `get?_run`).

Equality looks at the second view only: two maps are equal when they have the same names with equal
values (`OrderedMap.equal_iff`).  An unordered map keeps the second view and forgets the first, so
that the way through it and back leads to an equal map, in which the entries may have any order.  A
NaN, which is no value equal to itself, is the only thing that can make a difference
(`Value.equal_self_iff`).
-/

namespace PackedRecord

/-- A value is equal to itself exactly if it is no NaN. -/
lemma Value.equal_self_iff {v : Value} :
    v.equal v = true ↔ ∀ x, v = .float x → x.isNaN = false := by
  cases v <;> simp [equal, Binary64.equal]

/-! ## Steps -/

/-- A change of a map. -/
inductive MapStep (α : Type)
  | insert (key : String) (value : α)
  | remove (key : String)
  | collect (entries : List (String × α))

namespace MapStep

variable {α : Type}

/-- The names after a step, in order: a new name goes to the end, and among several entries the
first one of a name counts. -/
def names (names : List String) : MapStep α → List String
  | .insert key _ => if key ∈ names then names else names ++ [key]
  | .remove key => names.erase key
  | .collect entries => (entries.map Prod.fst).eraseDups

/-- The value of a name after a step: among several entries the last one of a name counts. -/
def value? (name : String) (old : Option α) : MapStep α → Option α
  | .insert key value => if name = key then some value else old
  | .remove key => if name = key then none else old
  | .collect entries => entries.reverse.lookup name

end MapStep

namespace OrderedMap

variable {α : Type} {m n : OrderedMap α}

/-- The map after a step. -/
def after (m : OrderedMap α) : MapStep α → OrderedMap α
  | .insert key value => (m.exchange key value).2
  | .remove key => (m.remove key).2
  | .collect entries => ofList entries

/-- The map after some steps, one after the other. -/
def run (m : OrderedMap α) (steps : List (MapStep α)) : OrderedMap α :=
  steps.foldl after m

theorem keys_after (m : OrderedMap α) (step : MapStep α) :
    (m.after step).keys = step.names m.keys := by
  cases step with
  | insert key value =>
    rw [after, exchange, keys_insert, MapStep.names]
    simp only [contains_iff]
  | remove key =>
    rw [after, remove, keys_erase, MapStep.names, m.nodup_keys.erase_eq_filter]
  | collect entries => exact keys_ofList entries

theorem get?_after (m : OrderedMap α) (step : MapStep α) (name : String) :
    (m.after step).get? name = step.value? name (m.get? name) := by
  cases step with
  | insert key value => exact get?_insert m key name value
  | remove key => exact get?_erase m key name
  | collect entries => exact get?_ofList entries name

/-- **The names of a map are known from the steps that led to it**, by induction on the steps. -/
theorem keys_run (m : OrderedMap α) (steps : List (MapStep α)) :
    (m.run steps).keys = steps.foldl MapStep.names m.keys := by
  induction steps generalizing m with
  | nil => rfl
  | cons step steps ih =>
    rw [List.foldl_cons, ← keys_after]
    exact ih (m.after step)

/-- **The value of a name is known from the steps that led to the map.** -/
theorem get?_run (m : OrderedMap α) (steps : List (MapStep α)) (name : String) :
    (m.run steps).get? name = steps.foldl (MapStep.value? name) (m.get? name) := by
  induction steps generalizing m with
  | nil => rfl
  | cons step steps ih =>
    rw [List.foldl_cons, ← get?_after]
    exact ih (m.after step)

/-- Collecting entries is inserting them one by one. -/
lemma run_inserts (m : OrderedMap α) (entries : List (String × α)) :
    m.run (entries.map fun e => .insert e.1 e.2) =
      entries.foldl (fun m e => m.insert e.1 e.2) m := by
  rw [run, List.foldl_map]
  rfl

/-! ## Steps under one name -/

/-- What the steps under a name do that is there: they change its entry and no other. -/
lemma steps_of_split {key : String} {old : α} {before after : List (String × α)}
    (h : m.toList = before ++ (key, old) :: after) :
    (∀ value, (m.exchange key value).1 = some old ∧
        (m.exchange key value).2.toList = before ++ (key, value) :: after) ∧
      (m.remove key).1 = some old ∧ (m.remove key).2.toList = before ++ after ∧
      ∀ value, ((m.remove key).2.exchange key value).1 = none ∧
        ((m.remove key).2.exchange key value).2.toList = before ++ after ++ [(key, value)] := by
  have hold := get?_of_split h
  have herased := toList_erase_of_split h
  -- Once it is removed, the name is new.
  have hnone : (m.erase key).get? key = none := by rw [get?_erase, if_pos rfl]
  have habsent := get?_eq_none_iff_notMem.mp hnone
  refine ⟨fun value => ⟨hold, toList_insert_of_split h value⟩, hold, herased, ?_⟩
  intro value
  refine ⟨hnone, ?_⟩
  rw [remove, exchange, toList_insert_of_notMem habsent, herased]

/-- What the steps under a name do that is not there. -/
lemma steps_of_notMem {key : String} (h : key ∉ m.keys) :
    m.remove key = (none, m) ∧ ∀ value, (m.exchange key value).1 = none ∧
      (m.exchange key value).2.toList = m.toList ++ [(key, value)] := by
  have hnone := get?_eq_none_iff_notMem.mpr h
  refine ⟨?_, fun value => ⟨hnone, toList_insert_of_notMem h value⟩⟩
  rw [remove, hnone, erase_of_notMem h]

/-! ## Equality -/

/-- Maps with the same names have them in one order or another. -/
lemma perm_keys_iff : m.keys.Perm n.keys ↔ ∀ key, key ∈ m.keys ↔ key ∈ n.keys :=
  List.perm_ext_iff_of_nodup m.nodup_keys n.nodup_keys

lemma equal_eq_true {eq : α → α → Bool} :
    m.equal eq n = true ↔ m.size = n.size ∧
      ∀ key v, m.get? key = some v → ∃ w, n.get? key = some w ∧ eq v w = true := by
  simp only [equal, Bool.and_eq_true, beq_iff_eq, List.all_eq_true, get?_eq_some_iff (m := m),
    Prod.forall]
  refine and_congr_right fun _ => forall₃_congr fun key v _ => ?_
  cases n.get? key <;> simp

/-- **Two maps are equal if they have the same names with equal values**, in any order. -/
theorem equal_iff {eq : α → α → Bool} :
    m.equal eq n = true ↔ (∀ key, key ∈ m.keys ↔ key ∈ n.keys) ∧
      ∀ key v w, m.get? key = some v → n.get? key = some w → eq v w = true := by
  rw [equal_eq_true]
  constructor
  · rintro ⟨hsize, hvalues⟩
    have hsubset : m.keys ⊆ n.keys := by
      intro key hkey
      obtain ⟨v, hv⟩ := mem_keys_iff.mp hkey
      obtain ⟨w, hw, -⟩ := hvalues key v hv
      exact mem_keys_iff.mpr ⟨w, hw⟩
    -- As many names, all of them among the others, are all the others.
    have hperm : m.keys.Perm n.keys :=
      (m.nodup_keys.subperm hsubset).perm_of_length_le (by rw [length_keys, length_keys, hsize])
    refine ⟨perm_keys_iff.mp hperm, ?_⟩
    intro key v w hv hw
    obtain ⟨w', hw', heq⟩ := hvalues key v hv
    rw [hw] at hw'
    rwa [Option.some.inj hw']
  · rintro ⟨hkeys, hvalues⟩
    refine ⟨?_, ?_⟩
    · rw [← length_keys, ← length_keys, (perm_keys_iff.mpr hkeys).length_eq]
    · intro key v hv
      obtain ⟨w, hw⟩ := mem_keys_iff.mp ((hkeys key).mp (mem_keys_iff.mpr ⟨v, hv⟩))
      exact ⟨w, hw, hvalues key v w hv hw⟩

/-- Maps that find the same values are equal exactly if these values are equal to themselves. -/
lemma equal_of_get?_eq {eq : α → α → Bool} (hget : ∀ key, m.get? key = n.get? key) :
    m.equal eq n = true ↔ ∀ v ∈ n.values, eq v v = true := by
  rw [equal_iff]
  constructor
  · rintro ⟨-, hvalues⟩ v hv
    obtain ⟨key, hkey⟩ := mem_values_iff.mp hv
    exact hvalues key v v ((hget key).trans hkey) hkey
  · intro hself
    refine ⟨?_, ?_⟩
    · intro key
      rw [mem_keys_iff, mem_keys_iff, hget]
    · intro key v w hv hw
      rw [hget, hw] at hv
      obtain rfl := Option.some.inj hv
      exact hself w (mem_values_iff.mpr ⟨key, hw⟩)

/-! ## Runs -/

/-- **An ordered map is an insertion-ordered dictionary**, whatever steps led to it from the empty
map.  Its names are different, and they, their order and their values are known from the steps.  A
name that is there stands at one place: inserting under it gives the old value and puts the new one
in that place; removing it gives the value and closes the gap, and inserting it again puts it at the
end.  A name that is not there goes to the end, and there is nothing to remove.  Collecting entries
is inserting them one by one, so that each name stands where it came first, with the value that it
had last.  Names and values are listed in the order of the entries.  Two maps are equal if they have
the same names with equal values, whatever their order.  And the way through an unordered map and
back, whatever the order of its entries, leads to a map of the same size, which is equal exactly if
no value is a NaN. -/
theorem run_dictionary (steps : List (MapStep Value)) :
    let m : OrderedMap Value := empty.run steps
    (m.keys.Nodup ∧ m.keys = steps.foldl MapStep.names [] ∧
        ∀ key, m.get? key = steps.foldl (MapStep.value? key) none) ∧
      (∀ key ∈ m.keys, ∃ before old after, m.toList = before ++ (key, old) :: after ∧
        (∀ value, (m.exchange key value).1 = some old ∧
          (m.exchange key value).2.toList = before ++ (key, value) :: after) ∧
        (m.remove key).1 = some old ∧ (m.remove key).2.toList = before ++ after ∧
        ∀ value, ((m.remove key).2.exchange key value).1 = none ∧
          ((m.remove key).2.exchange key value).2.toList = before ++ after ++ [(key, value)]) ∧
      (∀ key ∉ m.keys, m.remove key = (none, m) ∧ ∀ value, (m.exchange key value).1 = none ∧
        (m.exchange key value).2.toList = m.toList ++ [(key, value)]) ∧
      (∀ entries, m.after (.collect entries) = empty.run (entries.map fun e => .insert e.1 e.2) ∧
        (m.after (.collect entries)).keys = (entries.map Prod.fst).eraseDups ∧
        ∀ key, (m.after (.collect entries)).get? key = entries.reverse.lookup key) ∧
      (m.keys.length = m.size ∧ m.values.length = m.size ∧ m.toList = m.keys.zip m.values) ∧
      (∀ others, let n : OrderedMap Value := empty.run others
        m.equal Value.equal n = true ↔ (∀ key, key ∈ m.keys ↔ key ∈ n.keys) ∧
          ∀ key v w, m.get? key = some v → n.get? key = some w → v.equal w = true) ∧
      (ofHashMap m.toHashMap = ofList m.toHashMap.toList ∧
        ∀ entries, entries.Perm m.toHashMap.toList → (ofList entries).size = m.size ∧
          ((ofList entries).equal Value.equal m = true ↔
            ∀ x, .float x ∈ m.values → x.isNaN = false)) := by
  intro m
  refine ⟨⟨m.nodup_keys, keys_run empty steps, get?_run empty steps⟩, ?_, ?_, ?_, ?_, ?_, rfl, ?_⟩
  · intro key hkey
    obtain ⟨before, old, after, hsplit⟩ := exists_split hkey
    exact ⟨before, old, after, hsplit, steps_of_split hsplit⟩
  · intro key hkey
    exact steps_of_notMem hkey
  · intro entries
    refine ⟨?_, keys_after m (.collect entries), get?_after m (.collect entries)⟩
    rw [run_inserts]
    rfl
  · exact ⟨m.length_keys, m.length_values, List.zip_of_prod rfl rfl⟩
  · intro others
    exact equal_iff
  · intro entries hperm
    have hget := get?_ofList_of_perm hperm
    refine ⟨?_, ?_⟩
    · rw [← length_keys, ← length_keys, (perm_keys_iff.mpr ?_).length_eq]
      intro key
      rw [mem_keys_iff, mem_keys_iff, hget]
    · rw [equal_of_get?_eq hget]
      constructor
      · intro hself x hx
        exact Value.equal_self_iff.mp (hself _ hx) x rfl
      · intro hnan v hv
        refine Value.equal_self_iff.mpr ?_
        rintro x rfl
        exact hnan x hv

/-- A name that comes twice, is removed and is inserted again: it stood at its first place with its
last value, it stands at the end now, and what comes back from an unordered map is an equal map. -/
theorem run_dictionary_inserted_again :
    let collected : OrderedMap Value :=
      empty.run [.collect [("b", .int 1), ("a", .bool true), ("b", .int 2)]]
    let m : OrderedMap Value := empty.run [.collect [("b", .int 1), ("a", .bool true),
      ("b", .int 2)], .remove "b", .insert "b" (.int 3)]
    collected.keys = ["b", "a"] ∧ collected.get? "b" = some (.int 2) ∧ m.keys = ["a", "b"] ∧
      (ofHashMap m.toHashMap).equal Value.equal m = true := by
  intro collected m
  obtain ⟨⟨-, hcollected, hlast⟩, -⟩ :=
    run_dictionary [.collect [("b", .int 1), ("a", .bool true), ("b", .int 2)]]
  obtain ⟨⟨-, hkeys, -⟩, -, -, -, -, -, hback, hreturn⟩ :=
    run_dictionary [.collect [("b", .int 1), ("a", .bool true), ("b", .int 2)], .remove "b",
      .insert "b" (.int 3)]
  have hvalues : m.values = [.bool true, .int 3] := by decide
  refine ⟨hcollected.trans (by decide), (hlast "b").trans (by decide), hkeys.trans (by decide), ?_⟩
  rw [hback, (hreturn _ (List.Perm.refl _)).2]
  simp [m, hvalues]

end OrderedMap

end PackedRecord
