import Immediate.Proofs.Editing.Frames
import Immediate.Proofs.Editing.Reading
/-! What a selector picks from a container depends on what the container declares and on the child that
is picked, and on no other child. So a container that was written to gives the same picks as before, but
for the children that were written, and it refuses a selector only where it did before. -/
namespace Immediate.Value

open Outcome

/-- One container in place of another of the same kind with the same declarations. -/
inductive Rebuilt : Slot → Slot → Prop where
  | sequence {make : List Slot → Value} (sequence : Sequence make) (items items' : List Slot) :
    Rebuilt (some (make items)) (some (make items'))
  | map (keyTy valueTy : Option Ty) (pairs pairs' : List (Value × Slot)) :
    Rebuilt (some (.map keyTy valueTy pairs)) (some (.map keyTy valueTy pairs'))
  | entry (keyTy valueTy : Option Ty) (key value key' value' : Slot) :
    Rebuilt (some (.entry keyTy valueTy key value)) (some (.entry keyTy valueTy key' value'))
  | same (slot : Slot) : Rebuilt slot slot

theorem rebuilt_of_shell {slot slot' : Slot} (alike : shell slot' = shell slot) : Rebuilt slot slot' := by
  cases slot with
  | none =>
    cases slot' with
    | none => exact .same none
    | some v => cases v <;> cases alike
  | some v =>
    cases slot' with
    | none => cases v <;> cases alike
    | some v' =>
      cases v <;> cases v' <;> first
        | cases alike; exact .sequence (.list _) _ _
        | cases alike; exact .sequence (.iterator _) _ _
        | cases alike; exact .map ..
        | cases alike; exact .entry ..
        | cases alike; exact .same _
        | cases alike

theorem Rebuilt.symm {slot slot' : Slot} (rebuilt : Rebuilt slot slot') : Rebuilt slot' slot := by
  cases rebuilt with
  | sequence sequence => exact .sequence sequence ..
  | map => exact .map ..
  | entry => exact .entry ..
  | same => exact .same _

theorem Sequence.at?_iff {make : List Slot → Value} (sequence : Sequence make) {items : List Slot}
    {i : Nat} {child : Slot} :
    at? [.index i] (some (make items)) = .ok child ↔ items[i]? = some child := by
  cases sequence with
  | list => exact at?_list
  | iterator => exact at?_iterator

theorem Sequence.exists_at?_iff {make : List Slot → Value} (sequence : Sequence make) {items : List Slot}
    {i : Nat} : (∃ child, at? [.index i] (some (make items)) = .ok child) ↔ i < items.length := by
  simp [sequence.at?_iff, List.getElem?_eq_some_iff]

/-- A position that is carried from one sequence to another is one of both. -/
theorem Sequence.lt_of_carry {make : List Slot → Value} (sequence : Sequence make)
    {items items' : List Slot} {i : Nat} (inside : i < items.length)
    (carry : ∀ child, at? [.index i] (some (make items)) = .ok child →
      ∃ child', at? [.index i] (some (make items')) = .ok child') : i < items'.length := by
  obtain ⟨child, there⟩ := sequence.exists_at?_iff.mpr inside
  exact sequence.exists_at?_iff.mp (carry child there)

theorem listPosition_congr {index : Value} {length other i : Nat}
    (named : listPosition index length = .ok i) : listPosition index other = .ok i := by
  unfold listPosition at named ⊢
  split at named
  · cases named
  · rename_i numeric
    rw [if_neg numeric]
    dsimp only at named ⊢
    split at named
    · cases named
    · rename_i before
      rw [if_neg before]
      exact named

theorem mem_positionSteps {step : Step} {start stop : Nat} :
    step ∈ positionSteps start stop ↔ ∃ i, step = .index i ∧ start ≤ i ∧ i < stop := by
  rw [positionSteps, List.range_eq_range', List.drop_range', List.mem_map]
  constructor
  · rintro ⟨i, member, rfl⟩
    rw [List.mem_range'_1] at member
    exact ⟨i, rfl, by omega, by omega⟩
  · rintro ⟨i, rfl, late, early⟩
    refine ⟨i, ?_, rfl⟩
    rw [List.mem_range'_1]
    omega

theorem mem_selected {items : List Slot} {selects : Slot → Bool} {step : Step} :
    step ∈ ((items.zipIdx.filter fun (item, _) => selects item).map fun (_, i) => Step.index i) ↔
      ∃ i item, step = .index i ∧ items[i]? = some item ∧ selects item = true := by
  rw [List.mem_map]
  constructor
  · rintro ⟨⟨item, i⟩, member, rfl⟩
    obtain ⟨inside, selected⟩ := List.mem_filter.mp member
    exact ⟨i, item, rfl, List.mem_zipIdx_iff_getElem?.mp inside, selected⟩
  · rintro ⟨i, item, rfl, found, selected⟩
    exact ⟨(item, i), List.mem_filter.mpr ⟨List.mem_zipIdx_iff_getElem?.mpr found, selected⟩, rfl⟩

/-- The positions of a range are those between its ends that a sequence has. -/
theorem mem_rangeWithin {first last : Value} {length start stop : Nat}
    (cut : rangeWithin first last length = .ok (start, stop)) (i : Nat) :
    start ≤ i ∧ i < stop ↔ first.toInteger?.getD 0 ≤ i ∧ i ≤ last.toInteger?.getD 0 ∧ i < length := by
  unfold rangeWithin at cut
  split at cut
  · cases cut
  · split at cut
    · cases cut
    · dsimp only at cut
      split at cut
      · cases cut
        omega
      · cases cut
        omega

theorem exists_rangeWithin {first last : Value} {length start stop : Nat} (other : Nat)
    (cut : rangeWithin first last length = .ok (start, stop)) :
    ∃ start' stop', rangeWithin first last other = .ok (start', stop') := by
  unfold rangeWithin at cut ⊢
  split at cut
  · cases cut
  · rename_i low
    split at cut
    · cases cut
    · rename_i high
      rw [if_neg low, if_neg high]
      dsimp only
      split
      · exact ⟨_, _, rfl⟩
      · exact ⟨_, _, rfl⟩

/-! ### Picks of an index -/

section Index
variable {creating isStream : Bool} {index : Slot} {steps : List Step} {step : Step}

private theorem position_of_guarded {v : Value} {length : Nat}
    (run : (do
      let i ← listPosition v length
      if length ≤ i && !creating then
        throw (.outOfBounds i length)
      return ([Step.index i], false) : Except EvalError (List Step × Bool)) = .ok (steps, isStream)) :
    ∃ i, listPosition v length = .ok i ∧ isStream = false ∧ steps = [.index i] ∧
      (i < length ∨ creating = true) := by
  obtain ⟨i, named, rest⟩ := bind_eq_ok.mp run
  split at rest
  · cases rest
  · rename_i guard
    cases rest
    refine ⟨i, named, rfl, rfl, ?_⟩
    by_cases inside : i < length
    · exact .inl inside
    · have outside := Nat.le_of_not_lt inside
      cases creating with
      | true => exact .inr rfl
      | false => simp [outside] at guard

/-- An index of a sequence is a pattern, or names a position. -/
theorem indexSteps_sequence {make : List Slot → Value} (sequence : Sequence make) {items : List Slot} :
    indexSteps creating (make items) index = .ok (steps, isStream) ↔
      (∃ keyTy valueTy pattern, index = some (.map keyTy valueTy pattern) ∧ isStream = true ∧
        steps = (items.zipIdx.filter fun (item, _) => isSelectedBy pattern item).map
          fun (_, i) => Step.index i) ∨
      ∃ v i, index = some v ∧ (∀ keyTy valueTy pattern, v ≠ .map keyTy valueTy pattern) ∧
        listPosition v items.length = .ok i ∧ isStream = false ∧ steps = [.index i] ∧
        (i < items.length ∨ creating = true) := by
  constructor
  · intro selected
    cases index with
    | none => cases selected
    | some v =>
      cases v with
      | map keyTy valueTy pattern =>
        cases sequence <;>
        · cases selected
          exact .inl ⟨_, _, _, rfl, rfl, rfl⟩
      | _ =>
        obtain ⟨i, named, single, only, inside⟩ := position_of_guarded (by
          cases sequence <;> exact selected)
        exact .inr ⟨_, i, rfl, nofun, named, single, only, inside⟩
  · rintro (⟨keyTy, valueTy, pattern, rfl, rfl, rfl⟩ | ⟨v, i, rfl, other, named, rfl, rfl, inside⟩)
    · cases sequence <;> rfl
    · have unguarded : (decide (items.length ≤ i) && !creating) = false := by
        rcases inside with inside | rfl
        · rw [decide_eq_false (Nat.not_le.mpr inside), Bool.false_and]
        · rw [Bool.not_true, Bool.and_false]
      cases v with
      | map keyTy valueTy pattern => exact absurd rfl (other keyTy valueTy pattern)
      | _ => cases sequence <;> simp only [indexSteps, named, ok_bind, unguarded] <;> rfl

/-- An index of a map is a key. -/
theorem indexSteps_map {keyTy valueTy : Option Ty} {pairs : List (Value × Slot)} :
    indexSteps creating (.map keyTy valueTy pairs) index = .ok (steps, isStream) ↔
      ∃ v key, index = some v ∧ mapKey keyTy v = .ok key ∧ isStream = false ∧ steps = [.mapKey key] ∧
        ((∃ slot, lookup pairs key = some slot) ∨ creating = true) := by
  constructor
  · intro selected
    cases index with
    | none => cases selected
    | some v =>
      obtain ⟨key, named, rest⟩ := bind_eq_ok.mp selected
      split at rest
      · cases rest
      · rename_i guard
        cases rest
        refine ⟨v, key, rfl, named, rfl, rfl, ?_⟩
        cases found : lookup pairs key with
        | some slot => exact .inl ⟨slot, rfl⟩
        | none =>
          cases creating with
          | true => exact .inr rfl
          | false => simp [found] at guard
  · rintro ⟨v, key, rfl, named, rfl, rfl, present⟩
    have unguarded : (!creating && (lookup pairs key).isNone) = false := by
      rcases present with ⟨slot, found⟩ | rfl
      · simp [found]
      · simp
    simp only [indexSteps, named, ok_bind, unguarded]
    rfl

/-- A step that an index picks from a container written to, it picked before, if what the step leads to
was there before. -/
theorem indexed_of_rebuilt {v v' : Value} (rebuilt : Rebuilt (some v) (some v'))
    (selected : indexSteps creating v' index = .ok (steps, isStream)) (member : step ∈ steps)
    (carry : ∀ child, at? [step] (some v') = .ok child → at? [step] (some v) = .ok child) :
    ∃ before, indexSteps creating v index = .ok (before, isStream) ∧ step ∈ before := by
  cases rebuilt with
  | same => exact ⟨steps, selected, member⟩
  | sequence sequence items items' =>
    rcases (indexSteps_sequence sequence).mp selected with
      ⟨keyTy, valueTy, pattern, rfl, rfl, rfl⟩ | ⟨v, i, rfl, other, named, rfl, rfl, inside⟩
    · refine ⟨_, (indexSteps_sequence sequence).mpr (.inl ⟨_, _, _, rfl, rfl, rfl⟩), ?_⟩
      obtain ⟨i, item, rfl, found, selects⟩ := mem_selected.mp member
      exact mem_selected.mpr
        ⟨i, item, rfl, sequence.at?_iff.mp (carry item (sequence.at?_iff.mpr found)), selects⟩
    · cases List.mem_singleton.mp member
      refine ⟨_, (indexSteps_sequence sequence).mpr
        (.inr ⟨v, i, rfl, other, listPosition_congr named, rfl, rfl, ?_⟩), member⟩
      exact inside.imp_left fun inside => sequence.lt_of_carry inside fun child there =>
        ⟨child, carry child there⟩
  | map keyTy valueTy pairs pairs' =>
    obtain ⟨v, key, rfl, named, rfl, rfl, present⟩ := indexSteps_map.mp selected
    cases List.mem_singleton.mp member
    refine ⟨_, indexSteps_map.mpr ⟨v, key, rfl, named, rfl, rfl, ?_⟩, member⟩
    refine present.imp_left fun ⟨slot, found⟩ => ⟨slot, ?_⟩
    exact at?_map.mp (carry slot (at?_map.mpr found))
  | entry => cases index <;> cases selected

/-- An index that picked from a container picks from it again once that was written to, if nothing
was taken away. -/
theorem exists_indexed_of_rebuilt {v v' : Value} (rebuilt : Rebuilt (some v) (some v'))
    (selected : indexSteps creating v index = .ok (steps, isStream))
    (carry : ∀ step ∈ steps, ∀ child, at? [step] (some v) = .ok child →
      ∃ child', at? [step] (some v') = .ok child') :
    ∃ after, indexSteps creating v' index = .ok (after, isStream) := by
  cases rebuilt with
  | same => exact ⟨steps, selected⟩
  | sequence sequence items items' =>
    rcases (indexSteps_sequence sequence).mp selected with
      ⟨keyTy, valueTy, pattern, rfl, rfl, rfl⟩ | ⟨v, i, rfl, other, named, rfl, rfl, inside⟩
    · exact ⟨_, (indexSteps_sequence sequence).mpr (.inl ⟨_, _, _, rfl, rfl, rfl⟩)⟩
    · refine ⟨_, (indexSteps_sequence sequence).mpr
        (.inr ⟨v, i, rfl, other, listPosition_congr named, rfl, rfl, ?_⟩)⟩
      exact inside.imp_left fun inside => sequence.lt_of_carry inside (carry _ List.mem_cons_self)
  | map keyTy valueTy pairs pairs' =>
    obtain ⟨v, key, rfl, named, rfl, rfl, present⟩ := indexSteps_map.mp selected
    refine ⟨_, indexSteps_map.mpr ⟨v, key, rfl, named, rfl, rfl, ?_⟩⟩
    refine present.imp_left fun ⟨slot, found⟩ => ?_
    obtain ⟨child', there⟩ := carry _ List.mem_cons_self slot (at?_map.mpr found)
    exact ⟨child', at?_map.mp there⟩
  | entry => cases index <;> cases selected

end Index

/-! ### Picks of a selector -/

section Selector
variable {creating isStream : Bool} {selector : Selector} {slot slot' : Slot} {steps : List Step}
  {step : Step}

theorem selectedSteps_all {make : List Slot → Value} (sequence : Sequence make) (items : List Slot) :
    selectedSteps creating .all (some (make items)) = .ok (positionSteps 0 items.length, true) := by
  cases sequence <;> rfl

theorem selectedSteps_range {make : List Slot → Value} (sequence : Sequence make) (items : List Slot)
    (low high : Value) : selectedSteps creating (.range (some low) (some high)) (some (make items)) = do
      let (start, stop) ← rangeWithin low high items.length
      return (positionSteps start stop, true) := by
  cases sequence <;> rfl

/-- A lenient index picks what the index picks from what is there, and otherwise nothing. -/
theorem selectedSteps_optional {index : Slot} {parent : Value} :
    selectedSteps creating (.optional index) (some parent) = .ok (steps, isStream) ↔
      isStream = true ∧ ((∃ single, indexSteps false parent index = .ok (steps, single)) ∨
        steps = [] ∧ ∃ e, indexSteps false parent index = .error e) := by
  simp only [selectedSteps]
  constructor
  · intro selected
    split at selected
    · rename_i found single picked
      cases selected
      exact ⟨rfl, .inl ⟨single, picked⟩⟩
    · rename_i e failed
      cases selected
      exact ⟨rfl, .inr ⟨rfl, e, failed⟩⟩
  · rintro ⟨rfl, ⟨single, picked⟩ | ⟨rfl, e, failed⟩⟩
    · rw [picked]
    · rw [failed]

private theorem all_of_rebuilt {v v' : Value} (rebuilt : Rebuilt (some v) (some v'))
    (keyed : SlotKeyed (some v)) (keyed' : SlotKeyed (some v')) (own : step.Keyed)
    (selected : selectedSteps creating .all (some v') = .ok (steps, isStream)) (member : step ∈ steps)
    (carry : ∀ child, at? [step] (some v') = .ok child → at? [step] (some v) = .ok child) :
    ∃ before pick, selectedSteps creating .all (some v) = .ok (before, isStream) ∧ pick ∈ before ∧
      pick.same step = true := by
  cases rebuilt with
  | same => exact ⟨steps, step, selected, member, Step.same_refl own⟩
  | sequence sequence items items' =>
    rw [selectedSteps_all sequence] at selected
    cases selected
    obtain ⟨i, rfl, -, inside⟩ := mem_positionSteps.mp member
    have within := sequence.lt_of_carry inside fun child there => ⟨child, carry child there⟩
    exact ⟨_, _, selectedSteps_all sequence items,
      mem_positionSteps.mpr ⟨i, rfl, Nat.zero_le i, within⟩, Step.same_refl own⟩
  | map keyTy valueTy pairs pairs' =>
    cases selected
    obtain ⟨pair, inside, rfl⟩ := List.mem_map.mp member
    have after := keyed_map_iff.mp (keyed' _ rfl)
    have found := at?_map.mp (carry pair.2 (at?_map.mpr (lookup_of_mem after inside)))
    obtain ⟨other, listed, same, -⟩ := exists_of_lookup found
    have spelled := (keyed_map_iff.mp (keyed _ rfl)).keys other listed
    exact ⟨_, .mapKey other.1, rfl, List.mem_map.mpr ⟨other, listed, rfl⟩,
      (same_comm spelled own).trans same⟩
  | entry => cases selected

/-- A range that goes on from a container is one of a sequence, or the container is as it was. -/
private theorem range_of_rebuilt {v v' : Value} {first last : Slot} (rebuilt : Rebuilt (some v) (some v'))
    (selected : selectedSteps creating (.range first last) (some v) = .ok (steps, isStream)) :
    v = v' ∨ ∃ make items items' low high start stop, Sequence make ∧ v = make items ∧
      v' = make items' ∧ first = some low ∧ last = some high ∧
      rangeWithin low high items.length = .ok (start, stop) ∧ steps = positionSteps start stop ∧
      isStream = true := by
  cases first with
  | none => cases selected
  | some low =>
    cases last with
    | none => cases selected
    | some high =>
      cases rebuilt with
      | same => exact .inl rfl
      | @sequence make sequence items items' =>
        rw [selectedSteps_range sequence] at selected
        obtain ⟨⟨start, stop⟩, cut, equal⟩ := bind_eq_ok.mp selected
        cases pure_eq_ok.mp equal
        exact .inr ⟨make, items, items', low, high, start, stop, sequence, rfl, rfl, rfl, rfl, cut, rfl, rfl⟩
      | map => cases selected
      | entry => cases selected

/-- A step that a selector picks from a container written to, it picked before, up to the spelling of a
key, if what the step leads to was there before. -/
theorem picked_of_rebuilt (rebuilt : Rebuilt slot slot') (keyed : SlotKeyed slot)
    (keyed' : SlotKeyed slot') (own : step.Keyed)
    (selected : selectedSteps creating selector slot' = .ok (steps, isStream)) (member : step ∈ steps)
    (carry : ∀ child, at? [step] slot' = .ok child → at? [step] slot = .ok child) :
    ∃ before pick, selectedSteps creating selector slot = .ok (before, isStream) ∧ pick ∈ before ∧
      pick.same step = true := by
  have itself {before : List Step} (picked : selectedSteps creating selector slot = .ok (before, isStream))
      (inside : step ∈ before) : ∃ before pick,
        selectedSteps creating selector slot = .ok (before, isStream) ∧ pick ∈ before ∧
        pick.same step = true := ⟨before, step, picked, inside, Step.same_refl own⟩
  cases slot' with
  | none => cases selected
  | some v' =>
    cases slot with
    | none => cases rebuilt
    | some v =>
      cases selector with
      | index index =>
        obtain ⟨before, picked, inside⟩ := indexed_of_rebuilt rebuilt selected member carry
        exact itself picked inside
      | optional index =>
        obtain ⟨rfl, ⟨single, picked⟩ | ⟨rfl, -⟩⟩ := selectedSteps_optional.mp selected
        · obtain ⟨before, picked, inside⟩ := indexed_of_rebuilt rebuilt picked member carry
          exact itself (selectedSteps_optional.mpr ⟨rfl, .inl ⟨single, picked⟩⟩) inside
        · cases member
      | all => exact all_of_rebuilt rebuilt keyed keyed' own selected member carry
      | range first last =>
        rcases range_of_rebuilt rebuilt.symm selected with rfl | ⟨make, items', items, low, high, start',
          stop', sequence, rfl, rfl, rfl, rfl, cut', rfl, rfl⟩
        · exact itself selected member
        · obtain ⟨start, stop, cut⟩ := exists_rangeWithin items.length cut'
          obtain ⟨i, rfl, late, early⟩ := mem_positionSteps.mp member
          obtain ⟨above, below, inside⟩ := (mem_rangeWithin cut' i).mp ⟨late, early⟩
          have within := sequence.lt_of_carry inside fun child there => ⟨child, carry child there⟩
          have picked : selectedSteps creating (.range (some low) (some high)) (some (make items)) =
              .ok (positionSteps start stop, true) := by
            rw [selectedSteps_range sequence, cut]
            rfl
          exact itself picked (mem_positionSteps.mpr
            ⟨i, rfl, (mem_rangeWithin cut i).mpr ⟨above, below, within⟩⟩)
      | entryKey | entryValue =>
        cases rebuilt with
        | same => exact itself selected member
        | sequence sequence => cases sequence <;> cases selected
        | map => cases selected
        | entry =>
          cases selected
          exact itself rfl member

/-- A selector that picked from a container picks from it again once that was written to, if nothing was
taken away. -/
theorem exists_picked_of_rebuilt (rebuilt : Rebuilt slot slot')
    (selected : selectedSteps creating selector slot = .ok (steps, isStream))
    (carry : ∀ step ∈ steps, ∀ child, at? [step] slot = .ok child →
      ∃ child', at? [step] slot' = .ok child') :
    ∃ after, selectedSteps creating selector slot' = .ok (after, isStream) := by
  cases slot with
  | none => cases selected
  | some v =>
    cases slot' with
    | none => cases rebuilt
    | some v' =>
      cases selector with
      | index index => exact exists_indexed_of_rebuilt rebuilt selected carry
      | optional index =>
        obtain ⟨rfl, -⟩ := selectedSteps_optional.mp selected
        cases picked : indexSteps false v' index with
        | ok found => exact ⟨_, selectedSteps_optional.mpr ⟨rfl, .inl ⟨found.2, picked⟩⟩⟩
        | error e => exact ⟨_, selectedSteps_optional.mpr ⟨rfl, .inr ⟨rfl, e, picked⟩⟩⟩
      | all =>
        cases rebuilt with
        | same => exact ⟨steps, selected⟩
        | sequence sequence items items' =>
          rw [selectedSteps_all sequence] at selected
          cases selected
          exact ⟨_, selectedSteps_all sequence items'⟩
        | map keyTy valueTy pairs pairs' =>
          cases selected
          exact ⟨_, rfl⟩
        | entry => cases selected
      | range first last =>
        rcases range_of_rebuilt rebuilt selected with rfl | ⟨make, items, items', low, high, start,
          stop, sequence, rfl, rfl, rfl, rfl, cut, rfl, rfl⟩
        · exact ⟨steps, selected⟩
        · obtain ⟨start', stop', cut'⟩ := exists_rangeWithin items'.length cut
          refine ⟨positionSteps start' stop', ?_⟩
          rw [selectedSteps_range sequence, cut']
          rfl
      | entryKey | entryValue =>
        cases rebuilt with
        | same => exact ⟨steps, selected⟩
        | sequence sequence => cases sequence <;> cases selected
        | map => cases selected
        | entry =>
          cases selected
          exact ⟨_, rfl⟩

/-- Positions before one that is there are there. -/
theorem at?_index_of_le {i j : Nat} {child : Slot} (early : i ≤ j)
    (there : at? [.index j] slot = .ok child) : ∃ child', at? [.index i] slot = .ok child' := by
  obtain ⟨v, rfl, held⟩ := at?_step_eq_ok.mp there
  cases held with
  | listItem found | iteratorItem found =>
    obtain ⟨inside, -⟩ := List.getElem?_eq_some_iff.mp found
    have within := Nat.lt_of_le_of_lt early inside
    first
      | exact ⟨_, at?_list.mpr (List.getElem?_eq_getElem within)⟩
      | exact ⟨_, at?_iterator.mpr (List.getElem?_eq_getElem within)⟩

private theorem indexed_before {index : Slot} {make : List Slot → Value} (sequence : Sequence make)
    {items items' : List Slot} {isStream' : Bool} {steps' : List Step} {i j : Nat} (early : i < j)
    (selected : indexSteps creating (make items) index = .ok (steps, isStream))
    (member : .index j ∈ steps)
    (selected' : indexSteps creating (make items') index = .ok (steps', isStream'))
    (member' : .index i ∈ steps') : ∃ child, at? [.index i] (some (make items)) = .ok child := by
  rcases (indexSteps_sequence sequence).mp selected with
    ⟨keyTy, valueTy, pattern, rfl, -, rfl⟩ | ⟨v, k, rfl, other, named, -, rfl, -⟩
  · obtain ⟨k, item, same, found, -⟩ := mem_selected.mp member
    cases same
    exact at?_index_of_le (Nat.le_of_lt early) (sequence.at?_iff.mpr found)
  · rcases (indexSteps_sequence sequence).mp selected' with
      ⟨keyTy, valueTy, pattern, same, -, -⟩ | ⟨v', k', same, -, named', -, rfl, -⟩
    · cases same
      exact absurd rfl (other keyTy valueTy pattern)
    · cases same
      cases List.mem_singleton.mp member
      cases List.mem_singleton.mp member'
      have equal := (listPosition_congr named).symm.trans named'
      cases equal
      exact absurd early (Nat.lt_irrefl _)

/-- A selector that picks a position from a container, and an earlier one once that was written to, picks
positions that were there, for one that may be new is picked alone. -/
theorem at?_of_picked_before {isStream' : Bool} {steps' : List Step} {i j : Nat} (early : i < j)
    (rebuilt : Rebuilt slot slot') (keyed : SlotKeyed slot)
    (selected : selectedSteps creating selector slot = .ok (steps, isStream))
    (member : .index j ∈ steps)
    (selected' : selectedSteps creating selector slot' = .ok (steps', isStream'))
    (member' : .index i ∈ steps') : ∃ child, at? [.index i] slot = .ok child := by
  have present (picked : selectedSteps false selector slot = .ok (steps, isStream)) :
      ∃ child, at? [.index i] slot = .ok child := by
    obtain ⟨child, there⟩ := reads_of_selected keyed picked member
    exact at?_index_of_le (Nat.le_of_lt early) there
  cases slot with
  | none => cases selected
  | some v =>
    cases slot' with
    | none => cases rebuilt
    | some v' =>
      cases selector with
      | index index =>
        cases rebuilt with
        | sequence sequence => exact indexed_before sequence early selected member selected' member'
        | map keyTy valueTy pairs =>
          have picked : indexSteps creating (.map keyTy valueTy pairs) index = _ := selected
          obtain ⟨_, key, -, -, -, rfl, -⟩ := indexSteps_map.mp picked
          simp at member
        | entry => cases index <;> cases selected
        | same =>
          cases v with
          | list => exact indexed_before (.list _) early selected member selected' member'
          | iterator => exact indexed_before (.iterator _) early selected member selected' member'
          | map keyTy valueTy pairs =>
            have picked : indexSteps creating (.map keyTy valueTy pairs) index = _ := selected
            obtain ⟨_, key, -, -, -, rfl, -⟩ := indexSteps_map.mp picked
            simp at member
          | _ => cases index <;> cases selected
      | range first last => cases first <;> cases last <;> exact present selected
      | _ => exact present selected

end Selector

end Immediate.Value
