import Mathlib
import PackedRecord.Proofs.Datum.Leaves

/-!
# Progress and ends

A sequence has no length of its own.  It asks for elements as long as values are left, and nothing
else stops it, so that it ends only if its elements take values.  The rules of `Shape.Ends` say how
rebuilding ends where it does, and in them a sequence goes on for as long as it has to.
`Shape.rebuild` cannot do that.  It puts a bound to each sequence, the number of values that are
left when the sequence starts.

An element with a leaf takes at least one value (`Shape.length_lt_of_rebuild`), so that such
elements never meet the bound.  An element without leaves takes none (`Shape.rebuild_of_no_leaves`).
Once there is a value, its sequence asks for another element and another, with the same values left
each time (`Shape.sequence_of_nothing_endless`).  The bound turns just this into a fault of its own,
and otherwise it is not seen (`Shape.ends_iff`).

The main statement has both sides (`Shape.rebuild_progress`).  Rebuilding ends, whatever the values,
where all elements of sequences have leaves; and of elements without leaves there is no end.
-/

namespace PackedRecord

/-! ## Rebuilding without bounds -/

mutual

/-- Rebuilding a datum of a shape from values ends, and this is what it ends with. -/
inductive Shape.Ends : Shape → List Value → Rebuilt Datum → Prop
  | atOnce {s : Shape} {values : List Value} (hparts : s.parts? = none)
    (hsequence : ∀ e, s ≠ .sequence e) : Ends s values (s.rebuild values)
  | group {s : Shape} {parts : List Shape} {values : List Value} {r : Rebuilt (List Datum)}
    (hparts : s.parts? = some parts) (hall : Shape.EndsAll parts values r) :
    Ends s values (r.map s.assemble)
  | sequence {e : Shape} {values : List Value} {r : Rebuilt (List Datum)}
    (hdrains : Shape.Drains e values r) : Ends (.sequence e) values (r.map .sequence)

/-- Rebuilding data of several shapes, from left to right until one is at fault, ends. -/
inductive Shape.EndsAll : List Shape → List Value → Rebuilt (List Datum) → Prop
  | nil {values : List Value} : EndsAll [] values (.ok [], values)
  | fault {s : Shape} {shapes : List Shape} {values rest : List Value} {fault : Fault}
    (hs : s.Ends values (.error fault, rest)) : EndsAll (s :: shapes) values (.error fault, rest)
  | cons {s : Shape} {shapes : List Shape} {values rest : List Value} {d : Datum}
    {r : Rebuilt (List Datum)} (hs : s.Ends values (.ok d, rest))
    (hshapes : EndsAll shapes rest r) : EndsAll (s :: shapes) values (r.map (d :: ·))

/-- Rebuilding elements, as many as it takes until no values are left or one is at fault, ends. -/
inductive Shape.Drains : Shape → List Value → Rebuilt (List Datum) → Prop
  | done {e : Shape} : Drains e [] (.ok [], [])
  | fault {e : Shape} {v : Value} {values rest : List Value} {fault : Fault}
    (he : e.Ends (v :: values) (.error fault, rest)) :
    Drains e (v :: values) (.error fault, rest)
  | element {e : Shape} {v : Value} {values rest : List Value} {d : Datum}
    {r : Rebuilt (List Datum)} (he : e.Ends (v :: values) (.ok d, rest))
    (hrest : Drains e rest r) : Drains e (v :: values) (r.map (d :: ·))

end

namespace Shape

/-- `s.HasElements e`: a sequence in `s`, however deep, has elements of the shape `e`. -/
inductive HasElements : Shape → Shape → Prop
  | sequence {e : Shape} : HasElements (.sequence e) e
  | element {e x : Shape} : HasElements e x → HasElements (.sequence e) x
  | part {s part x : Shape} {parts : List Shape} :
    s.parts? = some parts → part ∈ parts → HasElements part x → HasElements s x

/-- Induction over a shape that goes into the elements of its sequences. -/
@[elab_as_elim]
theorem induction_elements {P : Shape → Prop}
    (leaf : ∀ s, s.parts? = none → (∀ e, s ≠ .sequence e) → P s)
    (sequence : ∀ e, P e → P (.sequence e))
    (group : ∀ s parts, s.parts? = some parts → (∀ part ∈ parts, P part) → P s) (s : Shape) :
    P s := by
  cases hparts : s.parts? with
  | some parts =>
    exact group s parts hparts fun part hpart => induction_elements leaf sequence group part
  | none =>
    cases s
    case sequence e => exact sequence e (induction_elements leaf sequence group e)
    all_goals exact leaf _ hparts (by simp)
termination_by sizeOf s
decreasing_by
  · decreasing_tactic
  · exact sizeOf_lt_of_mem_parts hparts hpart

end Shape

/-! ## The fault of a bound -/

/-- The fault that stands for a sequence without an end. -/
def Rebuilt.Endless {α : Type} (r : Rebuilt α) : Prop :=
  r.1 = .error .endlessSequence

namespace Rebuilt

variable {α β : Type}

lemma endless_error {fault : Fault} {rest : List Value} :
    Endless ((.error fault, rest) : Rebuilt α) ↔ fault = .endlessSequence := by
  rw [Endless, Except.error.injEq]

lemma not_endless_ok {a : α} {rest : List Value} : ¬ Endless ((.ok a, rest) : Rebuilt α) :=
  nofun

lemma endless_map {f : α → β} {r : Rebuilt α} : (Rebuilt.map f r).Endless ↔ r.Endless := by
  rcases r with ⟨fault | a, rest⟩
  · exact endless_error.trans endless_error.symm
  · exact iff_of_false not_endless_ok not_endless_ok

end Rebuilt

namespace Leaf

variable {l : Leaf} {v : Value} {fault : Fault}

lemma malformedText_of_offer (h : l.offer v = .error fault) :
    ∃ bad, fault = .malformedText bad := by
  unfold offer at h
  split at h <;> try cases h
  all_goals
    split at h <;> cases h
    exact ⟨_, rfl⟩

/-- A leaf takes a value by itself, and no sequence is in it. -/
lemma not_endless_of_take : l.take v ≠ .error .endlessSequence := by
  unfold take
  split
  · next hoffer =>
    obtain ⟨bad, rfl⟩ := malformedText_of_offer hoffer
    nofun
  · split <;> nofun

end Leaf

/-! ## What is taken -/

section Bound

variable {element : List Value → Rebuilt Datum} {bound : ℕ} {values : List Value}

/-- Where values are left, a sequence with a bound above zero asks for an element. -/
lemma rebuildRest_succ (hvalues : values ≠ []) :
    rebuildRest element (bound + 1) values =
      match element values with
      | (.error fault, rest) => (.error fault, rest)
      | (.ok d, rest) => Rebuilt.map (d :: ·) (rebuildRest element bound rest) := by
  obtain ⟨v, values, rfl⟩ := List.exists_cons_of_ne_nil hvalues
  rfl

/-- A sequence that is not at fault leaves nothing, and keeps to its bound. -/
lemma length_le_of_rebuildRest {rest : List Value} {items : List Datum}
    (h : rebuildRest element bound values = (.ok items, rest)) :
    items.length ≤ bound ∧ rest = [] := by
  induction bound generalizing values items with
  | zero =>
    cases values <;> cases h
    exact ⟨le_rfl, rfl⟩
  | succ bound ih =>
    by_cases hvalues : values = []
    · subst hvalues
      cases h
      exact ⟨Nat.zero_le _, rfl⟩
    · rw [rebuildRest_succ hvalues] at h
      split at h
      · cases h
      · obtain ⟨tail, htail, rfl⟩ := Rebuilt.exists_of_map h
        obtain ⟨hle, hrest⟩ := ih htail
        exact ⟨Nat.succ_le_succ hle, hrest⟩

end Bound

namespace Shape

variable {s e : Shape} {parts : List Shape} {values rest : List Value} {d : Datum}

lemma taken_of_rebuildAll {data : List Datum}
    (hparts : ∀ part ∈ parts, ∀ values rest d, part.rebuild values = (.ok d, rest) →
      rest.length < values.length ∨ rest = values ∧ (values = [] ∨ part.leaves = []))
    (h : rebuildAll parts values = (.ok data, rest)) :
    rest.length < values.length ∨ rest = values ∧ (values = [] ∨ parts.flatMap leaves = []) := by
  induction parts generalizing values data with
  | nil =>
    cases h
    exact Or.inr ⟨rfl, Or.inr rfl⟩
  | cons part parts ih =>
    obtain ⟨hpart, hparts⟩ := List.forall_mem_cons.mp hparts
    obtain ⟨d, after, tail, hfirst, hrest, -⟩ := exists_of_rebuildAll h
    rw [List.flatMap_cons, List.append_eq_nil_iff]
    rcases hpart _ _ _ hfirst with hlt | ⟨rfl, hleaves⟩
    · rcases ih hparts hrest with hlt' | ⟨rfl, -⟩
      · exact Or.inl (hlt'.trans hlt)
      · exact Or.inl hlt
    · rcases ih hparts hrest with hlt | ⟨rfl, hothers⟩
      · exact Or.inl hlt
      · exact Or.inr ⟨rfl, by tauto⟩

/-- **Rebuilding takes values, or there are none to take**: none are left, or none are wanted. -/
theorem taken_of_rebuild (h : s.rebuild values = (.ok d, rest)) :
    rest.length < values.length ∨ rest = values ∧ (values = [] ∨ s.leaves = []) := by
  induction s using induction_elements generalizing values rest d with
  | leaf s hparts hsequence =>
    cases s
    case leaf l =>
      cases values with
      | nil => cases h
      | cons v values =>
        left
        rw [← (Prod.mk.inj h).2]
        exact Nat.lt_succ_self _
    case sequence e => exact absurd rfl (hsequence e)
    all_goals cases hparts <;> cases h
  | sequence e _ =>
    obtain ⟨items, hrest, -⟩ := Rebuilt.exists_of_map h
    obtain ⟨-, rfl⟩ := length_le_of_rebuildRest hrest
    cases values with
    | nil => exact Or.inr ⟨rfl, Or.inl rfl⟩
    | cons v values => exact Or.inl (Nat.succ_pos _)
  | group s parts hparts ih =>
    rw [rebuild_of_group hparts] at h
    obtain ⟨data, hall, -⟩ := Rebuilt.exists_of_map h
    rw [leaves_of_group hparts]
    exact taken_of_rebuildAll (fun part hpart values rest d => ih part hpart) hall

/-- A shape with a leaf takes a value at least. -/
lemma length_lt_of_rebuild (hleaves : s.leaves ≠ []) (hvalues : values ≠ [])
    (h : s.rebuild values = (.ok d, rest)) : rest.length < values.length := by
  rcases taken_of_rebuild h with hlt | ⟨-, hnone⟩
  · exact hlt
  · exact absurd hnone (not_or.mpr ⟨hvalues, hleaves⟩)

/-- A shape without leaves takes no value, and is never at fault. -/
lemma rebuild_of_no_leaves (hleaves : s.leaves = []) (values : List Value) :
    s.rebuild values = (.ok (s.group []), values) := by
  rw [rebuild_eq_leaves, hleaves]
  rfl

/-- Of a shape without leaves there is no last one while values are left. -/
lemma rebuildRest_of_no_leaves (hleaves : e.leaves = []) (hvalues : values ≠ []) (bound : ℕ) :
    rebuildRest e.rebuild bound values = (.error .endlessSequence, values) := by
  induction bound with
  | zero =>
    obtain ⟨v, values, rfl⟩ := List.exists_cons_of_ne_nil hvalues
    rfl
  | succ bound ih =>
    rw [rebuildRest_succ hvalues, rebuild_of_no_leaves hleaves]
    simp only [ih]
    rfl

/-! ## Where no bound is met -/

/-- What is rebuilt at once has no sequence that could be endless. -/
lemma not_endless_of_leaf (hparts : s.parts? = none) (hsequence : ∀ e, s ≠ .sequence e) :
    ¬ (s.rebuild values).Endless := by
  cases s
  case leaf l =>
    cases values with
    | nil => exact nofun
    | cons v values => exact l.not_endless_of_take
  case sequence e => exact absurd rfl (hsequence e)
  case unit | unitStruct | enumeration | map => exact nofun
  all_goals cases hparts

lemma not_endless_of_parts (hparts : ∀ part ∈ parts, ∀ values, ¬ (part.rebuild values).Endless)
    (values : List Value) : ¬ (rebuildAll parts values).Endless := by
  induction parts generalizing values with
  | nil => exact nofun
  | cons part parts ih =>
    obtain ⟨hpart, hparts⟩ := List.forall_mem_cons.mp hparts
    rw [rebuildAll]
    split
    · next hfirst =>
      have hfault := hpart values
      rw [hfirst, Rebuilt.endless_error] at hfault
      rwa [Rebuilt.endless_error]
    · rw [Rebuilt.endless_map]
      exact ih hparts _

lemma not_endless_of_elements (hleaves : e.leaves ≠ [])
    (he : ∀ values, ¬ (e.rebuild values).Endless) {bound : ℕ} (hbound : values.length ≤ bound) :
    ¬ (rebuildRest e.rebuild bound values).Endless := by
  induction bound generalizing values with
  | zero =>
    obtain rfl := List.eq_nil_of_length_eq_zero (Nat.le_zero.mp hbound)
    exact nofun
  | succ bound ih =>
    by_cases hvalues : values = []
    · subst hvalues
      exact nofun
    · rw [rebuildRest_succ hvalues]
      split
      · next helement =>
        have hfault := he values
        rw [helement, Rebuilt.endless_error] at hfault
        rwa [Rebuilt.endless_error]
      · next helement =>
        have hlt := length_lt_of_rebuild hleaves hvalues helement
        rw [Rebuilt.endless_map]
        exact ih (by omega)

/-- Where all elements have leaves, no bound is met. -/
lemma not_endless (helements : ∀ e, s.HasElements e → e.leaves ≠ []) (values : List Value) :
    ¬ (s.rebuild values).Endless := by
  induction s using induction_elements generalizing values with
  | leaf s hparts hsequence => exact not_endless_of_leaf hparts hsequence
  | sequence e ih =>
    rw [rebuild, Rebuilt.endless_map]
    exact not_endless_of_elements (helements e .sequence)
      (ih fun x hx => helements x (.element hx)) le_rfl
  | group s parts hparts ih =>
    rw [rebuild_of_group hparts, Rebuilt.endless_map]
    exact not_endless_of_parts
      (fun part hpart => ih part hpart fun x hx => helements x (.part hparts hpart hx)) values

/-! ## The bound is not seen -/

/-- Several shapes that end are rebuilt to what they end with, if each of them is. -/
lemma rebuildAll_of_endsAll
    (hparts : ∀ part ∈ parts, ∀ values r, part.Ends values r →
      part.rebuild values = r ∧ ¬ r.Endless)
    {r : Rebuilt (List Datum)} (h : EndsAll parts values r) :
    rebuildAll parts values = r ∧ ¬ r.Endless := by
  induction parts generalizing values r with
  | nil =>
    cases h
    exact ⟨rfl, nofun⟩
  | cons part parts ih =>
    obtain ⟨hpart, hparts⟩ := List.forall_mem_cons.mp hparts
    cases h with
    | fault hfirst =>
      obtain ⟨hrebuild, hfault⟩ := hpart _ _ hfirst
      rw [Rebuilt.endless_error] at hfault ⊢
      rw [rebuildAll, hrebuild]
      exact ⟨rfl, hfault⟩
    | cons hfirst hrest =>
      obtain ⟨hrebuild, -⟩ := hpart _ _ hfirst
      obtain ⟨rfl, hfault⟩ := ih hparts hrest
      rw [rebuildAll, hrebuild, Rebuilt.endless_map]
      exact ⟨rfl, hfault⟩

/-- A sequence that ends is rebuilt to what it ends with, by any bound that is no less than the
number of values left.  By induction on the elements: one with a leaf takes a value, and one without
is followed by another just like it. -/
lemma rebuildRest_of_drains
    (he : ∀ values r, e.Ends values r → e.rebuild values = r ∧ ¬ r.Endless)
    {values : List Value} {r : Rebuilt (List Datum)} (h : e.Drains values r) {bound : ℕ}
    (hbound : values.length ≤ bound) : rebuildRest e.rebuild bound values = r ∧ ¬ r.Endless := by
  match h, bound with
  | .done, _ => exact ⟨by rw [rebuildRest], nofun⟩
  | .fault hfault, bound + 1 =>
    obtain ⟨hrebuild, hfault⟩ := he _ _ hfault
    rw [Rebuilt.endless_error] at hfault ⊢
    rw [rebuildRest_succ (List.cons_ne_nil _ _), hrebuild]
    exact ⟨rfl, hfault⟩
  | .element helement hrest, bound + 1 =>
    obtain ⟨hrebuild, -⟩ := he _ _ helement
    by_cases hleaves : e.leaves = []
    · -- The same values are left, so the rest of the sequence is endless as well.
      obtain ⟨hendless, hfault⟩ := rebuildRest_of_drains he hrest le_rfl
      rw [rebuild_of_no_leaves hleaves] at hrebuild
      obtain ⟨-, rfl⟩ := Prod.mk.inj hrebuild
      rw [rebuildRest_of_no_leaves hleaves (List.cons_ne_nil _ _)] at hendless
      rw [← hendless, Rebuilt.endless_error] at hfault
      exact absurd rfl hfault
    · have hlt := length_lt_of_rebuild hleaves (List.cons_ne_nil _ _) hrebuild
      have hle := Nat.le_of_lt_succ (hlt.trans_le hbound)
      obtain ⟨rfl, hfault⟩ := rebuildRest_of_drains he hrest hle
      rw [rebuildRest_succ (List.cons_ne_nil _ _), hrebuild, Rebuilt.endless_map]
      exact ⟨rfl, hfault⟩

/-- What rebuilding ends with is what a shape is rebuilt to. -/
lemma rebuild_of_ends {r : Rebuilt Datum} (h : s.Ends values r) :
    s.rebuild values = r ∧ ¬ r.Endless := by
  induction s using induction_elements generalizing values r with
  | leaf s hparts hsequence =>
    cases h with
    | atOnce => exact ⟨rfl, not_endless_of_leaf hparts hsequence⟩
    | group hgroup => rw [hparts] at hgroup; cases hgroup
    | sequence => exact absurd rfl (hsequence _)
  | sequence e ih =>
    cases h with
    | atOnce _ hsequence => exact absurd rfl (hsequence e)
    | group hgroup => cases hgroup
    | sequence hdrains =>
      obtain ⟨hrest, hfault⟩ := rebuildRest_of_drains (fun values r => ih) hdrains le_rfl
      rw [rebuild, hrest, Rebuilt.endless_map]
      exact ⟨rfl, hfault⟩
  | group s parts hparts ih =>
    cases h with
    | atOnce hleaf => rw [hparts] at hleaf; cases hleaf
    | group hgroup hall =>
      obtain rfl := Option.some.inj (hparts.symm.trans hgroup)
      obtain ⟨hrest, hfault⟩ :=
        rebuildAll_of_endsAll (fun part hpart values r => ih part hpart) hall
      rw [rebuild_of_group hparts, hrest, Rebuilt.endless_map]
      exact ⟨rfl, hfault⟩
    | sequence => cases hparts

/-- Several shapes that are rebuilt other than at a bound end, if each of them does. -/
lemma endsAll_of_rebuildAll
    (hparts : ∀ part ∈ parts, ∀ values, ¬ (part.rebuild values).Endless →
      part.Ends values (part.rebuild values))
    (h : ¬ (rebuildAll parts values).Endless) : EndsAll parts values (rebuildAll parts values) := by
  induction parts generalizing values with
  | nil => exact .nil
  | cons part parts ih =>
    obtain ⟨hpart, hparts⟩ := List.forall_mem_cons.mp hparts
    have hfirst := hpart values
    rw [rebuildAll] at h ⊢
    rcases hrebuild : part.rebuild values with ⟨fault | d, after⟩
    · rw [hrebuild] at h hfirst
      rw [Rebuilt.endless_error] at h hfirst
      exact .fault (hfirst h)
    · rw [hrebuild] at h hfirst
      rw [Rebuilt.endless_map] at h
      exact .cons (hfirst Rebuilt.not_endless_ok) (ih hparts h)

/-- A sequence that is rebuilt other than at a bound ends. -/
lemma drains_of_rebuildRest
    (he : ∀ values, ¬ (e.rebuild values).Endless → e.Ends values (e.rebuild values)) {bound : ℕ}
    (h : ¬ (rebuildRest e.rebuild bound values).Endless) :
    e.Drains values (rebuildRest e.rebuild bound values) := by
  induction bound generalizing values with
  | zero =>
    cases values with
    | nil => exact .done
    | cons v values => exact absurd rfl h
  | succ bound ih =>
    cases values with
    | nil => exact .done
    | cons v values =>
      have hfirst := he (v :: values)
      rw [rebuildRest_succ (List.cons_ne_nil _ _)] at h ⊢
      rcases hrebuild : e.rebuild (v :: values) with ⟨fault | d, after⟩
      · rw [hrebuild] at h hfirst
        rw [Rebuilt.endless_error] at h hfirst
        exact .fault (hfirst h)
      · rw [hrebuild] at h hfirst
        rw [Rebuilt.endless_map] at h
        exact .element (hfirst Rebuilt.not_endless_ok) (ih h)

/-- What a shape is rebuilt to is what rebuilding ends with, other than at a bound. -/
lemma ends_of_rebuild (h : ¬ (s.rebuild values).Endless) : s.Ends values (s.rebuild values) := by
  induction s using induction_elements generalizing values with
  | leaf s hparts hsequence => exact .atOnce hparts hsequence
  | sequence e ih =>
    rw [rebuild, Rebuilt.endless_map] at h
    rw [rebuild]
    exact .sequence (drains_of_rebuildRest (fun values => ih) h)
  | group s parts hparts ih =>
    rw [rebuild_of_group hparts, Rebuilt.endless_map] at h
    rw [rebuild_of_group hparts]
    exact .group hparts (endsAll_of_rebuildAll (fun part hpart values => ih part hpart) h)

/-- **The bounds are not seen**: with them a shape is rebuilt to what it is rebuilt to without, if
that ends, and where they are met it does not end. -/
theorem ends_iff {r : Rebuilt Datum} : s.Ends values r ↔ s.rebuild values = r ∧ ¬ r.Endless := by
  constructor
  · exact rebuild_of_ends
  · rintro ⟨rfl, h⟩
    exact ends_of_rebuild h

/-- A sequence of elements that take nothing does not end while there is a value. -/
lemma not_ends_of_no_leaves (hleaves : e.leaves = []) (hvalues : values ≠ []) (r : Rebuilt Datum) :
    ¬ (sequence e).Ends values r := by
  intro h
  obtain ⟨hrebuild, hfault⟩ := ends_iff.mp h
  rw [rebuild, rebuildRest_of_no_leaves hleaves hvalues] at hrebuild
  rw [← hrebuild, Rebuilt.endless_map, Rebuilt.endless_error] at hfault
  exact hfault rfl

/-- **Rebuilding makes progress where there is something to take.**  If all elements of sequences in
a shape have leaves, rebuilding it ends, whatever the values.  What it ends with, `rebuild` finds,
and it finds its own fault where there is no end.  An element with a leaf takes at least one of the
values that are left.  A sequence that is rebuilt has no more items than there were values, and
leaves none.  And a sequence of elements without leaves never ends once there is a value. -/
theorem rebuild_progress (s : Shape) :
    ((∀ e, s.HasElements e → e.leaves ≠ []) → ∀ values, ∃ r, s.Ends values r) ∧
    (∀ values r, s.Ends values r ↔ s.rebuild values = r ∧ ¬ r.Endless) ∧
    (s.leaves ≠ [] → ∀ values, values ≠ [] → ∀ d rest, s.Ends values (.ok d, rest) →
      rest.length < values.length) ∧
    (∀ values items rest, (sequence s).Ends values (.ok (.sequence items), rest) →
      items.length ≤ values.length ∧ rest = []) ∧
    (s.leaves = [] → ∀ values, values ≠ [] → ∀ r, ¬ (sequence s).Ends values r) := by
  refine ⟨?_, fun values r => ends_iff, ?_, ?_, fun hleaves values => not_ends_of_no_leaves hleaves⟩
  · intro helements values
    exact ⟨_, ends_of_rebuild (not_endless helements values)⟩
  · intro hleaves values hvalues d rest h
    exact length_lt_of_rebuild hleaves hvalues (rebuild_of_ends h).1
  · intro values items rest h
    obtain ⟨hrebuild, -⟩ := rebuild_of_ends h
    obtain ⟨data, hrest, hitems⟩ := Rebuilt.exists_of_map hrebuild
    obtain rfl := Datum.sequence.inj hitems
    exact length_le_of_rebuildRest hrest

/-- Pairs of a value and nothing end as the values do, and nothing by itself does not. -/
theorem rebuild_progress_pairs :
    (∃ items, (sequence (.tuple [.leaf .value, .tuple []])).Ends [.uint 7, .uint 8]
        (.ok (.sequence items), []) ∧ items.length ≤ 2) ∧
      ∀ r, ¬ (sequence (.tuple [])).Ends [.uint 7] r := by
  have helements : ∀ e, (sequence (.tuple [.leaf .value, .tuple []])).HasElements e →
      e.leaves ≠ [] := by
    intro e he
    cases he with
    | part hparts => cases hparts
    | sequence => nofun
    | element he =>
      cases he with
      | part hparts hpart he =>
        cases hparts
        rcases List.mem_pair.mp hpart with rfl | rfl
        · cases he with
          | part hparts => cases hparts
        · cases he with
          | part hparts hpart =>
            cases hparts
            cases hpart
  obtain ⟨hends, hrebuild, -, -, -⟩ :=
    rebuild_progress (sequence (.tuple [.leaf .value, .tuple []]))
  obtain ⟨-, -, -, hlength, -⟩ := rebuild_progress (.tuple [.leaf .value, .tuple []])
  obtain ⟨-, -, -, -, hendless⟩ := rebuild_progress (.tuple [])
  refine ⟨?_, hendless rfl _ (List.cons_ne_nil _ _)⟩
  obtain ⟨r, hr⟩ := hends helements [.uint 7, .uint 8]
  obtain ⟨rfl, -⟩ := (hrebuild _ _).mp hr
  exact ⟨_, hr, (hlength _ _ _ hr).1⟩

/-- **A sequence of groups of nothing is never done** with a single value. -/
theorem sequence_of_nothing_endless : ¬ ∃ r, (sequence (.tuple [])).Ends [.uint 7] r := by
  rintro ⟨r, h⟩
  exact not_ends_of_no_leaves rfl (List.cons_ne_nil _ _) r h

end Shape

end PackedRecord
