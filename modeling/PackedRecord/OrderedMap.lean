import Std.Data.HashMap

/-!
# Insertion-ordered maps

A map from names that lists its entries in the order in which their names were first inserted.
Inserting under a name that is present replaces the value and keeps the place; removing an entry
keeps the order of the others, so that a name inserted again goes to the end.  No name occurs twice,
and the type says so.

Equality of maps ignores that order: two maps are equal when they have the same names with equal
values.

What an operation does is said through two views, the names in order and the look-up of a name:
`keys_insert` and `get?_insert` for insertion, `keys_erase` and `get?_erase` for removal.
-/

namespace PackedRecord

@[ext]
structure OrderedMap (α : Type) where
  /-- The entries in order. -/
  toList : List (String × α)
  nodup : (toList.map Prod.fst).Nodup

namespace OrderedMap

variable {α : Type}

def empty : OrderedMap α := ⟨[], List.nodup_nil⟩

def size (m : OrderedMap α) : Nat := m.toList.length

def isEmpty (m : OrderedMap α) : Bool := m.toList.isEmpty

def keys (m : OrderedMap α) : List String := m.toList.map Prod.fst

def values (m : OrderedMap α) : List α := m.toList.map Prod.snd

/-- The value under a name. -/
def get? (m : OrderedMap α) (key : String) : Option α :=
  m.toList.lookup key

def contains (m : OrderedMap α) (key : String) : Bool :=
  m.keys.contains key

theorem nodup_keys (m : OrderedMap α) : m.keys.Nodup := m.nodup

theorem length_keys (m : OrderedMap α) : m.keys.length = m.size := List.length_map _

theorem length_values (m : OrderedMap α) : m.values.length = m.size := List.length_map _

theorem contains_iff {m : OrderedMap α} {key : String} : m.contains key = true ↔ key ∈ m.keys :=
  List.contains_iff_mem

theorem lookup_eq_none {entries : List (String × α)} {key : String}
    (h : key ∉ entries.map Prod.fst) : entries.lookup key = none := by
  rw [List.lookup_eq_none_iff]
  intro e he
  have : e.1 ≠ key := fun hk => h (hk ▸ List.mem_map_of_mem he)
  simpa using this.symm

theorem get?_eq_none_iff {m : OrderedMap α} {key : String} :
    m.get? key = none ↔ m.contains key = false := by
  rw [Bool.eq_false_iff, Ne, contains_iff]
  constructor
  · intro h hk
    obtain ⟨e, he, rfl⟩ := List.mem_map.mp hk
    simpa using List.lookup_eq_none_iff.mp h e he
  · intro h
    exact lookup_eq_none h

@[simp] theorem get?_empty (key : String) : (empty : OrderedMap α).get? key = none := rfl

/-! ## Insertion and removal -/

/-- Entries with the value under one name replaced. -/
def replace (key : String) (value : α) (entries : List (String × α)) : List (String × α) :=
  entries.map fun e => if e.1 = key then (key, value) else e

theorem keys_replace (key : String) (value : α) (entries : List (String × α)) :
    (replace key value entries).map Prod.fst = entries.map Prod.fst := by
  induction entries with
  | nil => rfl
  | cons e entries ih =>
    simp only [replace, List.map_cons, List.map_map] at ih ⊢
    rw [ih]
    by_cases h : e.1 = key <;> simp [h]

theorem lookup_replace_self {key : String} (value : α) {entries : List (String × α)}
    (h : key ∈ entries.map Prod.fst) : (replace key value entries).lookup key = some value := by
  induction entries with
  | nil => simp at h
  | cons e entries ih =>
    obtain ⟨k, v⟩ := e
    simp only [replace, List.map_cons] at ih h ⊢
    by_cases hk : k = key
    · simp [hk]
    · rw [if_neg hk, List.lookup_cons, beq_eq_false_iff_ne.mpr (Ne.symm hk)]
      exact ih ((List.mem_cons.mp h).resolve_left (Ne.symm hk))

theorem lookup_replace_of_ne {key other : String} (value : α) (entries : List (String × α))
    (h : other ≠ key) : (replace key value entries).lookup other = entries.lookup other := by
  induction entries with
  | nil => rfl
  | cons e entries ih =>
    obtain ⟨k, v⟩ := e
    simp only [replace, List.map_cons] at ih ⊢
    by_cases hk : k = key
    · subst hk
      rw [if_pos rfl, List.lookup_cons, List.lookup_cons, beq_eq_false_iff_ne.mpr h]
      exact ih
    · rw [if_neg hk, List.lookup_cons, List.lookup_cons, ih]

/-- Inserts a value, at the place of its name if that is present and at the end otherwise. -/
def insert (m : OrderedMap α) (key : String) (value : α) : OrderedMap α :=
  if h : m.contains key then
    ⟨replace key value m.toList, by rw [keys_replace]; exact m.nodup⟩
  else
    ⟨m.toList ++ [(key, value)], by
      rw [List.map_append, List.nodup_append]
      refine ⟨m.nodup, by simp, ?_⟩
      intro a ha b hb hab
      apply h
      simp only [List.map_cons, List.map_nil, List.mem_singleton] at hb
      subst hab hb
      simpa [contains, keys] using ha⟩

@[simp] theorem keys_insert (m : OrderedMap α) (key : String) (value : α) :
    (m.insert key value).keys = if m.contains key then m.keys else m.keys ++ [key] := by
  unfold insert
  split
  · exact keys_replace key value m.toList
  · simp [keys]

theorem size_insert (m : OrderedMap α) (key : String) (value : α) :
    (m.insert key value).size = if m.contains key then m.size else m.size + 1 := by
  rw [← length_keys, keys_insert, ← length_keys]
  split <;> simp

theorem get?_insert (m : OrderedMap α) (key other : String) (value : α) :
    (m.insert key value).get? other = if other = key then some value else m.get? other := by
  unfold insert
  split
  · rename_i h
    by_cases ho : other = key
    · subst ho
      rw [if_pos rfl]
      exact lookup_replace_self value (contains_iff.mp h)
    · rw [if_neg ho]
      exact lookup_replace_of_ne value m.toList ho
  · rename_i h
    have absent : key ∉ m.toList.map Prod.fst := fun hk => h (contains_iff.mpr hk)
    by_cases ho : other = key
    · subst ho
      simp [get?, List.lookup_append, lookup_eq_none absent]
    · simp [get?, List.lookup_append, ho, List.lookup_cons, beq_eq_false_iff_ne.mpr ho]

/-- Removes the entry under a name. -/
def erase (m : OrderedMap α) (key : String) : OrderedMap α :=
  ⟨m.toList.filter fun e => e.1 != key, m.nodup.sublist (List.filter_sublist.map _)⟩

@[simp] theorem keys_erase (m : OrderedMap α) (key : String) :
    (m.erase key).keys = m.keys.filter (· != key) := by
  simp [keys, erase, List.filter_map, Function.comp_def]

theorem get?_erase (m : OrderedMap α) (key other : String) :
    (m.erase key).get? other = if other = key then none else m.get? other := by
  unfold get? erase
  simp only
  induction m.toList with
  | nil => simp
  | cons e entries ih =>
    obtain ⟨k, v⟩ := e
    by_cases hk : k = key
    · subst hk
      by_cases ho : other = k
      · simpa [ho] using ih
      · rw [List.lookup_cons, beq_eq_false_iff_ne.mpr ho]
        simpa using ih
    · by_cases ho : other = k
      · subst ho
        simp [hk]
      · have kept : (k != key) = true := bne_iff_ne.mpr hk
        rw [List.filter_cons, if_pos kept, List.lookup_cons, List.lookup_cons,
          beq_eq_false_iff_ne.mpr ho]
        exact ih

/-- Inserts a value, and gives the one that its name had before. -/
def exchange (m : OrderedMap α) (key : String) (value : α) : Option α × OrderedMap α :=
  (m.get? key, m.insert key value)

/-- Removes the entry under a name, and gives its value. -/
def remove (m : OrderedMap α) (key : String) : Option α × OrderedMap α :=
  (m.get? key, m.erase key)

/-- The map that inserting the entries one after the other yields. -/
def ofList (entries : List (String × α)) : OrderedMap α :=
  entries.foldl (fun m e => m.insert e.1 e.2) empty

/-! ## Equality -/

/-- Whether two maps have the same names with equal values. -/
def equal (eq : α → α → Bool) (m n : OrderedMap α) : Bool :=
  m.size == n.size &&
    m.toList.all fun e =>
      match n.get? e.1 with
      | some v => eq e.2 v
      | none => false

/-! ## Unordered maps -/

/-- The same entries without an order. -/
def toHashMap (m : OrderedMap α) : Std.HashMap String α :=
  m.toList.foldl (fun h e => h.insert e.1 e.2) ∅

/-- The entries of an unordered map, in an order of its own. -/
def ofHashMap (h : Std.HashMap String α) : OrderedMap α :=
  ofList h.toList

/-- The entries of an unordered map in the order of their names. -/
def sortedEntries (h : Std.HashMap String α) : List (String × α) :=
  h.toList.mergeSort fun d e => decide (d.1 ≤ e.1)

end OrderedMap

end PackedRecord
