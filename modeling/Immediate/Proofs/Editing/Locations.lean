import Immediate.Editing.Change
import Immediate.Proofs.Keys
/-! Reading and writing at locations. Every change of a variable is taken apart into a reading of
the slot at a location and a writing of another slot there, so the laws of changes are the laws of
these two. -/
namespace Immediate.Value

open Outcome

/-- The type that a container declares for the slot a step leads to. -/
def childTy? (step : Step) : Slot → Except EvalError (Option Ty)
  | none => .error (.nullOperand (.step step))
  | some parent =>
    match parent, step with
    | .list element _, .index _ | .iterator element _, .index _ => .ok element
    | .map _ valueTy _, .mapKey _ => .ok valueTy
    | .entry keyTy _ _ _, .entryKey => .ok keyTy
    | .entry _ valueTy _ _, .entryValue => .ok valueTy
    | other, _ => .error (.notIndexable other.kind)

/-- A sequence with one position set. Empty slots fill the gap before a new position. -/
def putItem (items : List Slot) (i : Nat) (new : Slot) : List Slot :=
  if i < items.length then items.set i new
  else items ++ List.replicate (i - items.length) none ++ [new]

/-- A container with one child set, whether it was there or not. -/
def putChild (step : Step) (new : Slot) : Slot → Slot
  | none => none
  | some parent =>
    match parent, step with
    | .list element items, .index i => some (.list element (putItem items i new))
    | .iterator element items, .index i => some (.iterator element (putItem items i new))
    | .map keyTy valueTy pairs, .mapKey key =>
      some (.map keyTy valueTy (insert pairs key new))
    | .entry keyTy valueTy _ value, .entryKey => some (.entry keyTy valueTy new value)
    | .entry keyTy valueTy key _, .entryValue => some (.entry keyTy valueTy key new)
    | other, _ => some other

/-- A slot with the one at a location below it set. -/
def putAt : Location → Slot → Slot → Slot
  | [], new, _ => new
  | step :: rest, new, slot =>
    match at? [step] slot with
    | .ok child => putChild step (putAt rest new child) slot
    | .error _ => putChild step (putAt rest new none) slot

/-! ### Reading -/

theorem at?_cons (step : Step) (rest : Location) (slot : Slot) :
    at? (step :: rest) slot = at? [step] slot >>= at? rest := by
  cases slot with
  | none => rfl
  | some v =>
    cases v with
    | list element items | iterator element items =>
      cases step with
      | index i =>
        simp only [at?]
        cases items[i]? <;> rfl
      | _ => rfl
    | map keyTy valueTy pairs =>
      cases step with
      | mapKey key =>
        simp only [at?]
        cases lookup pairs key <;> rfl
      | _ => rfl
    | _ => cases step <;> rfl

theorem at?_append (front back : Location) (slot : Slot) :
    at? (front ++ back) slot = at? front slot >>= at? back := by
  induction front generalizing slot with
  | nil => rfl
  | cons step rest ih =>
    rw [List.cons_append, at?_cons, at?_cons step rest, bind_assoc]
    exact congrArg _ (funext ih)

/-- The slots directly below a value. -/
inductive Child : Step → Value → Slot → Prop where
  | listItem {element : Option Ty} {items : List Slot} {i : Nat} {slot : Slot}
    (found : items[i]? = some slot) : Child (.index i) (.list element items) slot
  | iteratorItem {element : Option Ty} {items : List Slot} {i : Nat} {slot : Slot}
    (found : items[i]? = some slot) : Child (.index i) (.iterator element items) slot
  | mapValue {keyTy valueTy : Option Ty} {pairs : List (Value × Slot)} {key : Value} {slot : Slot}
    (found : lookup pairs key = some slot) : Child (.mapKey key) (.map keyTy valueTy pairs) slot
  | entryKey {keyTy valueTy : Option Ty} {key value : Slot} :
    Child .entryKey (.entry keyTy valueTy key value) key
  | entryValue {keyTy valueTy : Option Ty} {key value : Slot} :
    Child .entryValue (.entry keyTy valueTy key value) value

theorem at?_step_eq_ok {step : Step} {slot child : Slot} :
    at? [step] slot = .ok child ↔ ∃ v, slot = some v ∧ Child step v child := by
  constructor
  · intro read
    cases slot with
    | none => cases step <;> cases read
    | some v =>
      refine ⟨v, rfl, ?_⟩
      cases v with
      | list element items | iterator element items =>
        cases step with
        | index i =>
          simp only [at?] at read
          cases found : items[i]? with
          | none =>
            rw [found] at read
            cases read
          | some item =>
            rw [found] at read
            cases read
            first
              | exact .listItem found
              | exact .iteratorItem found
        | _ => cases read
      | map keyTy valueTy pairs =>
        cases step with
        | mapKey key =>
          simp only [at?] at read
          cases found : lookup pairs key with
          | none =>
            rw [found] at read
            cases read
          | some value =>
            rw [found] at read
            cases read
            exact .mapValue found
        | _ => cases read
      | entry keyTy valueTy key value =>
        cases step with
        | entryKey =>
          cases read
          exact .entryKey
        | entryValue =>
          cases read
          exact .entryValue
        | _ => cases read
      | _ => cases step <;> cases read
  · rintro ⟨v, rfl, held⟩
    cases held with
    | listItem found | iteratorItem found | mapValue found => simp only [at?, found]
    | entryKey | entryValue => rfl

theorem childTy?_of_at? {step : Step} {slot child : Slot} (read : at? [step] slot = .ok child) :
    ∃ own, childTy? step slot = .ok own := by
  obtain ⟨v, rfl, held⟩ := at?_step_eq_ok.mp read
  cases held <;> exact ⟨_, rfl⟩

/-- Below a slot with the keys apart, keys are apart. -/
theorem keyed_at? {location : Location} {root slot : Slot} (keyed : SlotKeyed root)
    (there : at? location root = .ok slot) : SlotKeyed slot := by
  induction location generalizing root with
  | nil =>
    cases there
    exact keyed
  | cons step rest ih =>
    rw [at?_cons] at there
    obtain ⟨child, first, others⟩ := bind_eq_ok.mp there
    refine ih ?_ others
    obtain ⟨v, rfl, below⟩ := at?_step_eq_ok.mp first
    have parent : v.Keyed := keyed v rfl
    cases below with
    | listItem found => exact keyed_list_iff.mp parent _ (List.mem_of_getElem? found)
    | iteratorItem found => exact keyed_iterator_iff.mp parent _ (List.mem_of_getElem? found)
    | mapValue found => exact (keyed_map_iff.mp parent).lookup found
    | entryKey => exact (keyed_entry_iff.mp parent).1
    | entryValue => exact (keyed_entry_iff.mp parent).2

/-! ### Writing -/

theorem setItem_eq (items : List Slot) (i : Nat) (new : Slot) :
    setItem items i new = match items[i]? with
      | some old => if sameSlot old new then (items, false) else (putItem items i new, true)
      | none => (putItem items i new, true) := by
  unfold setItem putItem replace
  by_cases inside : i < items.length
  · rw [List.getElem?_eq_getElem inside, if_pos inside]
    dsimp only
    split
    · rw [List.set_getElem_self]
    · rfl
  · rw [List.getElem?_eq_none (Nat.le_of_not_lt inside), if_neg inside]

/-- An assignment to a child casts to the declared type of the child. A child that is the same is
kept, so that nothing changes. -/
theorem assignChild_eq (step : Step) (new slot : Slot) :
    assignChild step new slot = do
      let known ← childTy? step slot
      let x ← castSlot known new
      match at? [step] slot with
      | .ok old => return if sameSlot old x then (slot, false) else (putChild step x slot, true)
      | .error _ => return (putChild step x slot, true) := by
  cases slot with
  | none => rfl
  | some v =>
    cases v with
    | list element items | iterator element items =>
      cases step with
      | index i =>
        simp only [assignChild, childTy?, ok_bind, at?, putChild]
        cases castSlot element new with
        | error e => rfl
        | ok x =>
          simp only [ok_bind, setItem_eq]
          cases items[i]? with
          | none => rfl
          | some old => cases same : sameSlot old x <;> simp [same]
      | _ => rfl
    | map keyTy valueTy pairs =>
      cases step with
      | mapKey key =>
        simp only [assignChild, childTy?, ok_bind, at?, putChild]
        cases castSlot valueTy new with
        | error e => rfl
        | ok x =>
          simp only [ok_bind, replace]
          cases found : lookup pairs key with
          | none => rfl
          | some old => cases same : sameSlot old x <;> simp [same, insert_of_lookup found]
      | _ => rfl
    | entry keyTy valueTy key value =>
      cases step with
      | entryKey =>
        simp only [assignChild, childTy?, ok_bind, at?, putChild, replace]
        cases castSlot keyTy new with
        | error e => rfl
        | ok x =>
          simp only [ok_bind]
          cases sameSlot key x <;> rfl
      | entryValue =>
        simp only [assignChild, childTy?, ok_bind, at?, putChild, replace]
        cases castSlot valueTy new with
        | error e => rfl
        | ok x =>
          simp only [ok_bind]
          cases sameSlot value x <;> rfl
      | _ => rfl
    | _ => cases step <;> rfl

/-- All that a successful assignment to a child does. -/
theorem assignChild_cases {step : Step} {new parent parent' : Slot} {changed : Bool}
    (run : assignChild step new parent = .ok (parent', changed)) : ∃ known x,
      childTy? step parent = .ok known ∧ castSlot known new = .ok x ∧
      (changed = false ∧ parent' = parent ∧
          (∃ old, at? [step] parent = .ok old ∧ sameSlot old x = true) ∨
        changed = true ∧ parent' = putChild step x parent ∧
          ∀ old, at? [step] parent = .ok old → sameSlot old x = false) := by
  rw [assignChild_eq] at run
  obtain ⟨known, declared, rest⟩ := bind_eq_ok.mp run
  obtain ⟨x, cast, rest⟩ := bind_eq_ok.mp rest
  refine ⟨known, x, declared, cast, ?_⟩
  cases read : at? [step] parent with
  | error e =>
    rw [read] at rest
    cases rest
    refine .inr ⟨rfl, rfl, fun old found => ?_⟩
    cases found
  | ok old =>
    rw [read] at rest
    have written := pure_eq_ok.mp rest
    by_cases same : sameSlot old x = true
    · rw [if_pos same] at written
      cases written
      exact .inl ⟨rfl, rfl, old, rfl, same⟩
    · rw [if_neg same] at written
      cases written
      refine .inr ⟨rfl, rfl, fun old' found => ?_⟩
      cases found
      exact eq_false_of_ne_true same

theorem putItem_of_getElem? {items : List Slot} {i : Nat} {item : Slot}
    (found : items[i]? = some item) (new : Slot) : putItem items i new = items.set i new := by
  obtain ⟨inside, -⟩ := List.getElem?_eq_some_iff.mp found
  exact if_pos inside

theorem mem_putItem {items : List Slot} {i : Nat} {new slot : Slot}
    (member : slot ∈ putItem items i new) : slot ∈ items ∨ slot = none ∨ slot = new := by
  unfold putItem at member
  split at member
  · rcases List.mem_or_eq_of_mem_set member with old | equal
    · exact .inl old
    · exact .inr (.inr equal)
  · rcases List.mem_append.mp member with padded | last
    · rcases List.mem_append.mp padded with old | gap
      · exact .inl old
      · exact .inr (.inl (List.eq_of_mem_replicate gap))
    · exact .inr (.inr (List.mem_singleton.mp last))

theorem mem_removeItem {items : List Slot} {i : Nat} {slot : Slot}
    (member : slot ∈ (removeItem items i).1) : slot ∈ items ∨ slot = none := by
  unfold removeItem at member
  split at member
  · exact .inl ((List.dropLast_sublist items).subset member)
  · exact List.mem_or_eq_of_mem_set member

theorem alterAt_cons (f : Slot → Except EvalError (Slot × Bool)) (step : Step) (rest : Location)
    (slot : Slot) :
    alterAt f (step :: rest) slot = do
      let child ← at? [step] slot
      let (child, changed) ← alterAt f rest child
      return (putChild step child slot, changed) := by
  cases slot with
  | none => rfl
  | some v =>
    cases v with
    | list element items | iterator element items =>
      cases step with
      | index i =>
        simp only [alterAt, at?, putChild]
        cases found : items[i]? with
        | none => rfl
        | some item => simp only [ok_bind, putItem_of_getElem? found]
      | _ => rfl
    | map keyTy valueTy pairs =>
      cases step with
      | mapKey key =>
        simp only [alterAt, at?, putChild]
        cases lookup pairs key <;> rfl
      | _ => rfl
    | _ => cases step <;> rfl

/-- A change at a location reads the slot there, changes it and writes it back. -/
theorem alterAt_eq (f : Slot → Except EvalError (Slot × Bool)) (location : Location)
    (slot : Slot) :
    alterAt f location slot = do
      let child ← at? location slot
      let (child, changed) ← f child
      return (putAt location child slot, changed) := by
  induction location generalizing slot with
  | nil =>
    simp only [alterAt, at?, putAt, ok_bind]
    cases f slot <;> rfl
  | cons step rest ih =>
    rw [alterAt_cons, at?_cons step rest, bind_assoc]
    simp only [putAt]
    cases at? [step] slot with
    | error e => rfl
    | ok child =>
      simp only [ok_bind, ih]
      cases at? rest child with
      | error e => rfl
      | ok inner =>
        simp only [ok_bind]
        cases f inner <;> rfl

theorem parent_of_alterAt {f : Slot → Except EvalError (Slot × Bool)} {location : Location}
    {slot slot' : Slot} {changed : Bool} (run : alterAt f location slot = .ok (slot', changed)) :
    ∃ parent parent', at? location slot = .ok parent ∧ f parent = .ok (parent', changed) ∧
      slot' = putAt location parent' slot := by
  rw [alterAt_eq] at run
  obtain ⟨parent, there, inner⟩ := bind_eq_ok.mp run
  obtain ⟨⟨parent', flag⟩, altered, put⟩ := bind_eq_ok.mp inner
  cases pure_eq_ok.mp put
  exact ⟨parent, parent', there, altered, rfl⟩

/-! ### One after the other -/

theorem putChild_of_at? {step : Step} {slot child : Slot} (read : at? [step] slot = .ok child) :
    putChild step child slot = slot := by
  obtain ⟨v, rfl, held⟩ := at?_step_eq_ok.mp read
  cases held with
  | listItem found | iteratorItem found =>
    obtain ⟨inside, rfl⟩ := List.getElem?_eq_some_iff.mp found
    simp only [putChild, putItem_of_getElem? found, List.set_getElem_self]
  | mapValue found => simp only [putChild, insert_of_lookup found]
  | entryKey | entryValue => rfl

/-- Writing back what was read changes nothing. -/
theorem putAt_of_at? {location : Location} {slot child : Slot}
    (read : at? location slot = .ok child) : putAt location child slot = slot := by
  induction location generalizing slot with
  | nil =>
    cases read
    rfl
  | cons step rest ih =>
    rw [at?_cons] at read
    obtain ⟨middle, first, others⟩ := bind_eq_ok.mp read
    simp only [putAt, first, ih others, putChild_of_at? first]

private theorem getElem?_set_cases {items : List Slot} {i : Nat} {item : Slot}
    (found : items[i]? = some item) (new : Slot) (j : Nat) :
    (items.set i new)[j]? = items[j]? ∨ items[j]? = some item ∧ (items.set i new)[j]? = some new := by
  by_cases hit : i = j
  · subst hit
    obtain ⟨inside, -⟩ := List.getElem?_eq_some_iff.mp found
    exact .inr ⟨found, List.getElem?_set_self inside⟩
  · exact .inl (List.getElem?_set_ne hit)

/-- After a child that was there has been set, every step reads what it read before, or else it
read that child and reads the new one. -/
theorem at?_putChild {step other : Step} {slot old : Slot} (there : at? [step] slot = .ok old)
    (new : Slot) :
    at? [other] (putChild step new slot) = at? [other] slot ∨
      at? [other] slot = .ok old ∧ at? [other] (putChild step new slot) = .ok new := by
  obtain ⟨v, rfl, held⟩ := at?_step_eq_ok.mp there
  cases held with
  | listItem found | iteratorItem found =>
    cases other with
    | index j =>
      simp only [putChild, putItem_of_getElem? found, at?, List.length_set]
      rcases getElem?_set_cases found new j with kept | ⟨before, after⟩
      · rw [kept]
        exact .inl rfl
      · rw [before, after]
        exact .inr ⟨rfl, rfl⟩
    | _ => exact .inl rfl
  | mapValue found =>
    cases other with
    | mapKey key =>
      simp only [putChild, at?]
      rcases lookup_insert_of_lookup found new with kept | ⟨before, after⟩
      · rw [kept]
        exact .inl rfl
      · rw [before, after]
        exact .inr ⟨rfl, rfl⟩
    | _ => exact .inl rfl
  | entryKey =>
    cases other with
    | entryKey => exact .inr ⟨rfl, rfl⟩
    | _ => exact .inl rfl
  | entryValue =>
    cases other with
    | entryValue => exact .inr ⟨rfl, rfl⟩
    | _ => exact .inl rfl

/-! ### What writing below a value keeps of it -/

/-- A slot without its contents: the kind and the declarations of a container. -/
def shell : Slot → Slot
  | some (.list element _) => some (.list element [])
  | some (.iterator element _) => some (.iterator element [])
  | some (.map keyTy valueTy _) => some (.map keyTy valueTy [])
  | some (.entry keyTy valueTy _ _) => some (.entry keyTy valueTy none none)
  | slot => slot

theorem childTy?_shell (step : Step) (slot : Slot) : childTy? step (shell slot) = childTy? step slot := by
  cases slot with
  | none => rfl
  | some v => cases v <;> cases step <;> rfl

theorem shell_putChild (step : Step) (new slot : Slot) : shell (putChild step new slot) = shell slot := by
  cases slot with
  | none => rfl
  | some v => cases v <;> cases step <;> rfl

/-- Slots on the way to a written one, and those beside them at no greater depth, keep their
declarations. -/
theorem shell_at?_putAt {location front : Location} {slot parent parent' middle' : Slot}
    (there : at? location slot = .ok parent) (alike : shell parent' = shell parent)
    (short : front.length ≤ location.length)
    (read : at? front (putAt location parent' slot) = .ok middle') :
    ∃ middle, at? front slot = .ok middle ∧ shell middle' = shell middle := by
  induction location generalizing front slot with
  | nil =>
    cases List.eq_nil_of_length_eq_zero (Nat.le_zero.mp short)
    cases there
    cases read
    exact ⟨_, rfl, alike⟩
  | cons step rest ih =>
    rw [at?_cons] at there
    obtain ⟨child, first, others⟩ := bind_eq_ok.mp there
    simp only [putAt, first] at read
    cases front with
    | nil =>
      cases read
      exact ⟨slot, rfl, shell_putChild ..⟩
    | cons other front =>
      rw [at?_cons] at read
      obtain ⟨child', reached, below⟩ := bind_eq_ok.mp read
      rcases at?_putChild first (putAt rest parent' child) with kept | ⟨before, after⟩
      · refine ⟨middle', ?_, rfl⟩
        rw [at?_cons, ← kept, reached]
        exact below
      · rw [after] at reached
        cases reached
        obtain ⟨middle, found, same⟩ := ih others (Nat.le_of_succ_le_succ short) below
        refine ⟨middle, ?_, same⟩
        rw [at?_cons, before]
        exact found

/-- One slot declares what another does down to a depth, wherever there is anything below it. -/
def Alike (depth : Nat) (before after : Slot) : Prop :=
  ∀ front : Location, front.length ≤ depth → ∀ middle', at? front after = .ok middle' →
    ∃ middle, at? front before = .ok middle ∧ shell middle' = shell middle

theorem Alike.refl (depth : Nat) (slot : Slot) : Alike depth slot slot :=
  fun _ _ middle read => ⟨middle, read, rfl⟩

theorem Alike.trans {depth : Nat} {first second third : Slot} (left : Alike depth first second)
    (right : Alike depth second third) : Alike depth first third := by
  intro front short middle'' read
  obtain ⟨middle', read', same'⟩ := right front short middle'' read
  obtain ⟨middle, read, same⟩ := left front short middle' read'
  exact ⟨middle, read, same'.trans same⟩

theorem Alike.child {depth : Nat} {before after child child' : Slot} {step : Step}
    (alike : Alike (depth + 1) before after) (reads : at? [step] before = .ok child)
    (reads' : at? [step] after = .ok child') : Alike depth child child' := by
  intro front short middle' read
  have whole : at? (step :: front) after = .ok middle' := by
    rw [at?_cons, reads']
    exact read
  obtain ⟨middle, found, same⟩ := alike (step :: front) (Nat.succ_le_succ short) middle' whole
  rw [at?_cons, reads] at found
  exact ⟨middle, found, same⟩

theorem Alike.childTy? {depth : Nat} {before after : Slot} (alike : Alike depth before after)
    (step : Step) : Value.childTy? step after = Value.childTy? step before := by
  obtain ⟨middle, found, same⟩ := alike [] (Nat.zero_le _) after rfl
  cases found
  rw [← childTy?_shell, same, childTy?_shell]

theorem shell_assignChild {step : Step} {new parent parent' : Slot} {changed : Bool}
    (run : assignChild step new parent = .ok (parent', changed)) : shell parent' = shell parent := by
  obtain ⟨known, x, -, -, ⟨-, rfl, -⟩ | ⟨-, rfl, -⟩⟩ := assignChild_cases run
  · rfl
  · exact shell_putChild ..

end Immediate.Value

namespace Immediate.TypedValue

open Outcome

/-- An assignment below a value assigns to a child of the slot at the rest of the location. -/
theorem parent_of_assignAt {t t' : TypedValue} {front : Location} {step : Step} {new : Slot}
    {changed : Bool} (run : t.assignAt (front ++ [step]) new = .ok (t', changed)) :
    ∃ parent parent', Value.at? front t.slot = .ok parent ∧
      Value.assignChild step new parent = .ok (parent', changed) ∧
      t' = ⟨t.ty, Value.putAt front parent' t.slot⟩ := by
  unfold assignAt at run
  rw [List.getLast?_concat, List.dropLast_concat] at run
  obtain ⟨⟨slot', changed'⟩, altered, equal⟩ := bind_eq_ok.mp run
  cases pure_eq_ok.mp equal
  obtain ⟨parent, parent', there, assigned, rfl⟩ := Value.parent_of_alterAt altered
  exact ⟨parent, parent', there, assigned, rfl⟩

theorem parent_of_removeAt {t t' : TypedValue} {front : Location} {step : Step} {changed : Bool}
    (run : t.removeAt (front ++ [step]) = .ok (t', changed)) :
    ∃ parent parent', Value.at? front t.slot = .ok parent ∧
      Value.removeChild step parent = .ok (parent', changed) ∧
      t' = ⟨t.ty, Value.putAt front parent' t.slot⟩ := by
  unfold removeAt at run
  rw [List.getLast?_concat, List.dropLast_concat] at run
  obtain ⟨⟨slot', changed'⟩, altered, equal⟩ := bind_eq_ok.mp run
  cases pure_eq_ok.mp equal
  obtain ⟨parent, parent', there, removed, rfl⟩ := Value.parent_of_alterAt altered
  exact ⟨parent, parent', there, removed, rfl⟩

end Immediate.TypedValue
