import Mathlib
import PackedRecord.OrderedMap

/-!
# Entries of an ordered map

No name of an ordered map occurs twice, so that looking a name up finds *the* entry of that name
(`OrderedMap.get?_eq_some_iff`), wherever it stands.  Around that entry the list falls into what
stands before it and what stands behind it.  Inserting under the name changes the entry in its place
(`toList_insert_of_split`), and removing it closes the gap (`toList_erase_of_split`).

Inserting a list of entries one after the other leaves each name where it came first, with the value
that it had last: `keys_ofList`, `get?_ofList`.  The second is a law of everything that takes
entries in turn and is looked up by name (`view_foldl`).  An unordered map is among them, and
therefore finds what the ordered map finds that it was made from (`getElem?_toHashMap`).
-/

namespace PackedRecord

namespace OrderedMap

variable {α : Type} {m : OrderedMap α} {key : String} {old : α}
  {entries before after : List (String × α)}

/-! ## Looking up -/

lemma get?_eq_none_iff_notMem : m.get? key = none ↔ key ∉ m.keys := by
  rw [get?_eq_none_iff, Bool.eq_false_iff, Ne, contains_iff]

/-- An entry is found under its name, since no other has that name. -/
lemma lookup_of_mem (hnodup : (entries.map Prod.fst).Nodup) :
    ∀ e ∈ entries, entries.lookup e.1 = some e.2 := by
  induction entries with
  | nil =>
    intro e he
    cases he
  | cons first entries ih =>
    obtain ⟨hfirst, hnodup⟩ := List.nodup_cons.mp hnodup
    intro e he
    rw [List.lookup_cons]
    rcases List.mem_cons.mp he with rfl | he
    · simp only [beq_self_eq_true]
    · have hne : e.1 ≠ first.1 := by
        intro heq
        exact hfirst (heq ▸ List.mem_map_of_mem he)
      simp only [beq_eq_false_iff_ne.mpr hne]
      exact ih hnodup e he

lemma lookup_eq_some_iff (hnodup : (entries.map Prod.fst).Nodup) {value : α} :
    entries.lookup key = some value ↔ (key, value) ∈ entries := by
  constructor
  · intro h
    obtain ⟨before, after, rfl, -⟩ := List.lookup_eq_some_iff.mp h
    exact List.mem_append_right before List.mem_cons_self
  · exact lookup_of_mem hnodup (key, value)

/-- Where no name occurs twice, the order of the entries does not matter. -/
lemma lookup_eq_of_perm {others : List (String × α)} (hnodup : (entries.map Prod.fst).Nodup)
    (hperm : entries.Perm others) (key : String) : entries.lookup key = others.lookup key := by
  have hnodup' : (others.map Prod.fst).Nodup := (hperm.map Prod.fst).nodup_iff.mp hnodup
  ext value
  rw [lookup_eq_some_iff hnodup, lookup_eq_some_iff hnodup', hperm.mem_iff]

theorem get?_eq_some_iff {value : α} : m.get? key = some value ↔ (key, value) ∈ m.toList :=
  lookup_eq_some_iff m.nodup

lemma mem_keys_iff : key ∈ m.keys ↔ ∃ value, m.get? key = some value := by
  rw [← Option.ne_none_iff_exists', Ne, get?_eq_none_iff_notMem, not_not]

lemma mem_values_iff {value : α} : value ∈ m.values ↔ ∃ key, m.get? key = some value := by
  simp only [get?_eq_some_iff, values, List.mem_map, Prod.exists, exists_eq_right]

/-! ## Around an entry -/

lemma exists_split (h : key ∈ m.keys) :
    ∃ before old after, m.toList = before ++ (key, old) :: after := by
  obtain ⟨old, hold⟩ := mem_keys_iff.mp h
  obtain ⟨before, after, hsplit⟩ := List.append_of_mem (get?_eq_some_iff.mp hold)
  exact ⟨before, old, after, hsplit⟩

lemma notMem_of_split (h : m.toList = before ++ (key, old) :: after) :
    key ∉ before.map Prod.fst ∧ key ∉ after.map Prod.fst := by
  have hnodup := m.nodup
  rw [h, List.map_append, List.map_cons, List.nodup_middle, List.nodup_cons,
    List.mem_append] at hnodup
  exact not_or.mp hnodup.1

lemma get?_of_split (h : m.toList = before ++ (key, old) :: after) : m.get? key = some old := by
  rw [get?_eq_some_iff, h]
  exact List.mem_append_right before List.mem_cons_self

lemma replace_of_notMem (h : key ∉ entries.map Prod.fst) (value : α) :
    replace key value entries = entries := by
  have hkept : ∀ e ∈ entries, (if e.1 = key then (key, value) else e) = e := by
    intro e he
    have hne : e.1 ≠ key := fun heq => h (heq ▸ List.mem_map_of_mem he)
    exact if_neg hne
  rw [replace, List.map_congr_left hkept, List.map_id']

lemma toList_insert_of_mem (h : key ∈ m.keys) (value : α) :
    (m.insert key value).toList = replace key value m.toList := by
  rw [insert, dif_pos (contains_iff.mpr h)]

lemma toList_insert_of_notMem (h : key ∉ m.keys) (value : α) :
    (m.insert key value).toList = m.toList ++ [(key, value)] := by
  have habsent : ¬ m.contains key = true := fun hmem => h (contains_iff.mp hmem)
  rw [insert, dif_neg habsent]

/-- Inserting under a name that is there changes its entry and nothing else. -/
theorem toList_insert_of_split (h : m.toList = before ++ (key, old) :: after) (value : α) :
    (m.insert key value).toList = before ++ (key, value) :: after := by
  obtain ⟨hbefore, hafter⟩ := notMem_of_split h
  have hmem : key ∈ m.keys := mem_keys_iff.mpr ⟨old, get?_of_split h⟩
  calc
    (m.insert key value).toList = replace key value (before ++ (key, old) :: after) := by
      rw [toList_insert_of_mem hmem, h]
    _ = replace key value before ++ (key, value) :: replace key value after := by
      rw [replace, List.map_append, List.map_cons, if_pos rfl]
      rfl
    _ = before ++ (key, value) :: after := by
      rw [replace_of_notMem hbefore, replace_of_notMem hafter]

lemma filter_of_notMem (h : key ∉ entries.map Prod.fst) :
    (entries.filter fun e => e.1 != key) = entries := by
  rw [List.filter_eq_self]
  intro e he
  rw [bne_iff_ne]
  exact fun heq => h (heq ▸ List.mem_map_of_mem he)

/-- Removing an entry leaves the others as they stand. -/
theorem toList_erase_of_split (h : m.toList = before ++ (key, old) :: after) :
    (m.erase key).toList = before ++ after := by
  obtain ⟨hbefore, hafter⟩ := notMem_of_split h
  have hself : (key != key) = false := bne_self_eq_false key
  calc
    (m.erase key).toList = (before ++ (key, old) :: after).filter fun e => e.1 != key := by
      rw [← h, erase]
    _ = before ++ after := by
      rw [List.filter_append, List.filter_cons, hself, if_neg Bool.false_ne_true,
        filter_of_notMem hbefore, filter_of_notMem hafter]

lemma erase_of_notMem (h : key ∉ m.keys) : m.erase key = m :=
  OrderedMap.ext (filter_of_notMem h)

/-! ## Many entries -/

/-- Entries with new names go to the end, in their order. -/
lemma toList_foldl_insert (hnodup : (entries.map Prod.fst).Nodup)
    (hnew : ∀ e ∈ entries, e.1 ∉ m.keys) :
    (entries.foldl (fun m e => m.insert e.1 e.2) m).toList = m.toList ++ entries := by
  induction entries generalizing m with
  | nil => rw [List.foldl_nil, List.append_nil]
  | cons e entries ih =>
    obtain ⟨hfirst, hnodup⟩ := List.nodup_cons.mp hnodup
    obtain ⟨hname, hnew⟩ := List.forall_mem_cons.mp hnew
    have hinsert := toList_insert_of_notMem hname e.2
    have hrest : ∀ other ∈ entries, other.1 ∉ (m.insert e.1 e.2).keys := by
      intro other hother hmem
      rw [keys, hinsert, List.map_append, List.mem_append] at hmem
      rcases hmem with hmem | hmem
      · exact hnew other hother hmem
      · rw [List.map_singleton, List.mem_singleton] at hmem
        exact hfirst (hmem ▸ List.mem_map_of_mem hother)
    rw [List.foldl_cons, ih hnodup hrest, hinsert, List.append_assoc, List.singleton_append]

lemma ofList_concat (entries : List (String × α)) (e : String × α) :
    ofList (entries ++ [e]) = (ofList entries).insert e.1 e.2 := by
  rw [ofList, List.foldl_append]
  rfl

/-- **Each name stands where it came first**, by induction on the entries from the front. -/
theorem keys_ofList (entries : List (String × α)) :
    (ofList entries).keys = (entries.map Prod.fst).eraseDups := by
  induction entries using List.reverseRecOn with
  | nil => rfl
  | append_singleton entries e ih =>
    have hcontains : (ofList entries).contains e.1 = true ↔ e.1 ∈ entries.map Prod.fst := by
      rw [contains_iff, ih, List.mem_eraseDups]
    rw [ofList_concat, keys_insert, List.map_append, List.map_singleton, List.eraseDups_append, ih]
    by_cases hmem : e.1 ∈ entries.map Prod.fst
    · rw [if_pos (hcontains.mpr hmem)]
      simp [List.removeAll, hmem]
    · rw [if_neg (fun h => hmem (hcontains.mp h))]
      simp [List.removeAll, hmem, List.eraseDups_cons]

/-- Whatever takes entries in turn and finds under a name the value that was put there last, finds
in the end the value of the last entry with that name. -/
lemma view_foldl {σ : Type} (view : σ → Option α) (put : σ → String × α → σ)
    (hput : ∀ s e, view (put s e) = if key = e.1 then some e.2 else view s)
    (entries : List (String × α)) (s : σ) :
    view (entries.foldl put s) = (entries.reverse.lookup key).or (view s) := by
  induction entries generalizing s with
  | nil => rfl
  | cons e entries ih =>
    have hlast : view (put s e) = ([e].lookup key).or (view s) := by
      obtain ⟨name, value⟩ := e
      rw [hput]
      by_cases h : key = name
      · simp [h]
      · simp [List.lookup_cons, h, beq_eq_false_iff_ne.mpr h]
    rw [List.foldl_cons, ih, hlast, List.reverse_cons, List.lookup_append, Option.or_assoc]

/-- **Each name has the value that it had last.** -/
theorem get?_ofList (entries : List (String × α)) (key : String) :
    (ofList entries).get? key = entries.reverse.lookup key := by
  have hput (m : OrderedMap α) (e : String × α) :
      (m.insert e.1 e.2).get? key = if key = e.1 then some e.2 else m.get? key :=
    get?_insert m e.1 key e.2
  calc
    (ofList entries).get? key = (entries.reverse.lookup key).or ((empty : OrderedMap α).get? key) :=
      view_foldl (fun m => m.get? key) _ hput entries empty
    _ = entries.reverse.lookup key := by rw [get?_empty, Option.or_none]

/-! ## Unordered maps -/

/-- An unordered map finds what the ordered map finds that it was made from. -/
theorem getElem?_toHashMap (m : OrderedMap α) (key : String) : m.toHashMap[key]? = m.get? key := by
  have hput (h : Std.HashMap String α) (e : String × α) :
      (h.insert e.1 e.2)[key]? = if key = e.1 then some e.2 else h[key]? := by
    simp only [Std.HashMap.getElem?_insert, beq_iff_eq, eq_comm (a := key)]
  calc
    m.toHashMap[key]? = (m.toList.reverse.lookup key).or (∅ : Std.HashMap String α)[key]? :=
      view_foldl (fun h : Std.HashMap String α => h[key]?) _ hput m.toList ∅
    _ = m.toList.reverse.lookup key := by rw [Std.HashMap.getElem?_empty, Option.or_none]
    _ = m.get? key := (lookup_eq_of_perm m.nodup (List.reverse_perm m.toList).symm key).symm

/-- The entries of an unordered map, in whatever order, make an ordered map that finds what the
ordered map finds that the unordered one was made from. -/
theorem get?_ofList_of_perm (hperm : entries.Perm m.toHashMap.toList) (key : String) :
    (ofList entries).get? key = m.get? key := by
  have hnodup : (entries.map Prod.fst).Nodup := by
    rw [(hperm.map Prod.fst).nodup_iff, List.Nodup, List.pairwise_map]
    exact Std.HashMap.distinct_keys_toList.imp fun hne => beq_eq_false_iff_ne.mp hne
  ext value
  rw [get?_ofList, ← lookup_eq_of_perm hnodup (List.reverse_perm entries).symm,
    lookup_eq_some_iff hnodup, hperm.mem_iff, Std.HashMap.mem_toList_iff_getElem?_eq_some,
    getElem?_toHashMap]

end OrderedMap

end PackedRecord
