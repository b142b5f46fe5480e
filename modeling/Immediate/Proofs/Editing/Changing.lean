import Immediate.Editing.Change
import Immediate.Proofs.Editing.Resolving
import Immediate.Proofs.Stores
/-! Changes of a variable one after another. Whether they end well or not, they leave every other
variable alone, and in the changed one what a first part of the changes makes of it, those that
failed being passed over. Only where the locations are no stream does a failure end the work. -/
namespace Immediate

open Edit Outcome

/-- A change of a typed value at one location, which also tells whether anything changed. -/
abbrev Alteration := TypedValue → Except EvalError (TypedValue × Bool)

/-- What alterations one after another leave of a typed value, those that fail being passed over. -/
def TypedValue.altered (t : TypedValue) : List Alteration → TypedValue
  | [] => t
  | change :: rest =>
    match change t with
    | .ok (changed, _) => changed.altered rest
    | .error _ => t.altered rest

/-- What holds of a typed value and passes from each alteration to the next holds in the end. -/
theorem TypedValue.altered_induction {motive : TypedValue → Prop} {t : TypedValue}
    {changes : List Alteration} (start : motive t)
    (next : ∀ u changed flag, ∀ change ∈ changes, motive u → change u = .ok (changed, flag) →
      motive changed) : motive (t.altered changes) := by
  induction changes generalizing t with
  | nil => exact start
  | cons change rest ih =>
    have others := fun u changed flag later member =>
      next u changed flag later (List.mem_cons_of_mem change member)
    simp only [altered]
    cases ran : change t with
    | ok changed => exact ih (next t _ _ change List.mem_cons_self start ran) others
    | error e => exact ih start others

/-- The assignments to locations: a single value goes to each of them, and a stream of values goes in
step with them, up to the end of the shorter one. -/
def Evaluated.pairedWith (locations : List Location) : Evaluated → List (Location × Slot)
  | .single slot => locations.map fun location => (location, slot)
  | .many slots => locations.zip slots

namespace Path

/-- What is left in a store by changes of one variable. -/
structure Left (base : VariableId) (t : TypedValue) (before after : Store)
    (done : List Alteration) : Prop where
  changed : after.find? base = some (t.altered done)
  others : ∀ other ≠ base, after.find? other = before.find? other

/-- How changes of a variable end: all are tried, unless the locations are no stream and one
fails. -/
inductive Ended (isStream : Bool) (t : TypedValue) (changes : List Alteration) :
    Except EvalError Nat → List Alteration → Prop where
  | well (n : Nat) : Ended isStream t changes (.ok n) changes
  | failed {done : List Alteration} {change : Alteration} {rest : List Alteration} {e : EvalError}
    (single : isStream = false) (split : changes = done ++ change :: rest)
    (failure : change (t.altered done) = .error e) : Ended isStream t changes (.error e) done

private theorem Left.put {base : VariableId} {t u : TypedValue} {changed : Bool}
    {before after : Store} {change : Alteration} {done : List Alteration}
    (ran : change t = .ok (u, changed)) (left : Left base u (before.put base u) after done) :
    Left base t before after (change :: done) := by
  refine ⟨?_, fun other apart => ?_⟩
  · rw [left.changed]
    simp only [TypedValue.altered, ran]
  · rw [left.others other apart, Store.find?_put_of_ne before u apart]

private theorem Left.skip {base : VariableId} {t : TypedValue} {before after : Store}
    {change : Alteration} {done : List Alteration} {e : EvalError} (ran : change t = .error e)
    (left : Left base t before after done) : Left base t before after (change :: done) := by
  refine ⟨?_, left.others⟩
  rw [left.changed]
  simp only [TypedValue.altered, ran]

private theorem Ended.map {isStream : Bool} {t : TypedValue} {changes done : List Alteration}
    {r : Except EvalError Nat} (ended : Ended isStream t changes r done) (f : Nat → Nat) :
    Ended isStream t changes (f <$> r) done := by
  cases ended with
  | well n => exact .well (f n)
  | failed single split failure => exact .failed single split failure

private theorem Ended.cons {isStream : Bool} {t u : TypedValue} {change : Alteration}
    {changes done : List Alteration} {r : Except EvalError Nat}
    (ended : Ended isStream u changes r done)
    (same : ∀ rest, t.altered (change :: rest) = u.altered rest) :
    Ended isStream t (change :: changes) r (change :: done) := by
  cases ended with
  | well n => exact .well n
  | failed single split failure =>
    refine .failed single (by rw [split]; rfl) ?_
    rw [same]
    exact failure

/-- Where the work stands after a change that made a difference. -/
def noted (w : Workspace) (base : VariableId) (u : TypedValue) (location : Location) : Workspace :=
  ⟨w.store.put base u, w.reports, w.changes ++ [(base, location)]⟩

section Step
variable {base : VariableId} {isStream : Bool} {location : Location} {change : Alteration}
  {rest : List (Location × Alteration)} {w : Workspace} {t : TypedValue}

theorem result_changeEach_cons (held : w.store.find? base = some t) :
    (changeEach base isStream ((location, change) :: rest)).result w =
      match change t with
      | .ok (u, true) => (· + 1) <$> (changeEach base isStream rest).result (noted w base u location)
      | .ok (u, false) =>
        (changeEach base isStream rest).result { w with store := w.store.put base u }
      | .error e =>
        if isStream then (changeEach base isStream rest).result { w with reports := w.reports ++ [e] }
        else .error e := by
  have peeked := Store.peek_eq_ok.mpr held
  simp only [changeEach, result_bind, result_store, after_store, ok_bind, result_lift, after_lift,
    peeked, result_settle, after_settle]
  cases ran : change t with
  | ok changed =>
    obtain ⟨u, flag⟩ := changed
    cases flag with
    | true =>
      simp only [ok_bind, result_bind, result_store, after_store, result_setStore, after_setStore,
        result_change, after_change, noted]
      cases (changeEach base isStream rest).result
        ⟨w.store.put base u, w.reports, w.changes ++ [(base, location)]⟩ <;> rfl
    | false => rfl
  | error e => cases isStream <;> rfl

theorem after_changeEach_cons (held : w.store.find? base = some t) :
    (changeEach base isStream ((location, change) :: rest)).after w =
      match change t with
      | .ok (u, true) => (changeEach base isStream rest).after (noted w base u location)
      | .ok (u, false) =>
        (changeEach base isStream rest).after { w with store := w.store.put base u }
      | .error e =>
        if isStream then (changeEach base isStream rest).after { w with reports := w.reports ++ [e] }
        else w := by
  have peeked := Store.peek_eq_ok.mpr held
  simp only [changeEach, after_bind, result_store, after_store, result_lift, after_lift, peeked,
    result_settle, after_settle]
  cases ran : change t with
  | ok changed =>
    obtain ⟨u, flag⟩ := changed
    cases flag with
    | true =>
      simp only [after_bind, result_store, after_store, result_setStore, after_setStore,
        result_change, after_change, after_pure, noted]
      cases (changeEach base isStream rest).result
        ⟨w.store.put base u, w.reports, w.changes ++ [(base, location)]⟩ <;> rfl
    | false => rfl
  | error e => cases isStream <;> rfl

end Step

theorem left_of_changeEach {base : VariableId} (isStream : Bool)
    (changes : List (Location × Alteration)) {w : Workspace} {t : TypedValue}
    (held : w.store.find? base = some t) : ∃ done,
      Left base t w.store ((changeEach base isStream changes).after w).store done ∧
      Ended isStream t (changes.map (·.2)) ((changeEach base isStream changes).result w) done := by
  induction changes generalizing w t with
  | nil => exact ⟨[], ⟨held, fun _ _ => rfl⟩, .well 0⟩
  | cons change rest ih =>
    obtain ⟨location, change⟩ := change
    rw [result_changeEach_cons held, after_changeEach_cons held, List.map_cons]
    cases ran : change t with
    | ok changed =>
      obtain ⟨u, flag⟩ := changed
      have same (rest : List Alteration) : t.altered (change :: rest) = u.altered rest := by
        simp only [TypedValue.altered, ran]
      have now : (w.store.put base u).find? base = some u := Store.find?_put_self ..
      cases flag with
      | true =>
        have noted : (noted w base u location).store.find? base = some u := now
        obtain ⟨done, left, ended⟩ := ih noted
        exact ⟨change :: done, left.put ran, (ended.cons same).map (· + 1)⟩
      | false =>
        have kept : ({ w with store := w.store.put base u } : Workspace).store.find? base = some u :=
          now
        obtain ⟨done, left, ended⟩ := ih kept
        exact ⟨change :: done, left.put ran, ended.cons same⟩
    | error e =>
      have same (rest : List Alteration) : t.altered (change :: rest) = t.altered rest := by
        simp only [TypedValue.altered, ran]
      cases isStream with
      | true =>
        have kept : ({ w with reports := w.reports ++ [e] } : Workspace).store.find? base = some t :=
          held
        obtain ⟨done, left, ended⟩ := ih kept
        exact ⟨change :: done, left.skip ran, ended.cons same⟩
      | false => exact ⟨[], ⟨held, fun _ _ => rfl⟩, .failed rfl rfl ran⟩

/-! ### Assigning and removing -/

theorem pairedWith_of_assignments {targets : Targets} {values : Evaluated}
    {assigned : List (Location × Slot)} (paired : assignments targets values = .ok assigned) :
    assigned = values.pairedWith targets.locations := by
  cases values with
  | single slot =>
    cases paired
    rfl
  | many slots =>
    simp only [assignments] at paired
    split at paired
    · cases paired
      rfl
    · cases paired

theorem mem_of_assignments {targets : Targets} {values : Evaluated}
    {assigned : List (Location × Slot)} (paired : assignments targets values = .ok assigned) :
    ∀ pair ∈ assigned, pair.1 ∈ targets.locations ∧ pair.2 ∈ values.values := by
  intro pair member
  rw [pairedWith_of_assignments paired] at member
  cases values with
  | single slot =>
    obtain ⟨location, inside, rfl⟩ := List.mem_map.mp member
    exact ⟨inside, by simp [Evaluated.values]⟩
  | many slots => exact List.of_mem_zip member

/-- The alterations of assignments, in order. -/
def assigning (assigned : List (Location × Slot)) : List (Location × Alteration) :=
  assigned.map fun (location, new) => (location, fun t => t.assignAt location new)

/-- The alterations of removals, in order. -/
def removing (locations : List Location) : List (Location × Alteration) :=
  locations.map fun location => (location, fun t => t.removeAt location)

/-- What every assignment of a sequence preserves holds after some of them. -/
theorem assigning_induction {motive : TypedValue → Prop} {t : TypedValue}
    {assigned : List (Location × Slot)} {done : List Alteration}
    (among : done ⊆ (assigning assigned).map (·.2)) (start : motive t)
    (step : ∀ pair ∈ assigned, ∀ u u' changed, motive u →
      u.assignAt pair.1 pair.2 = .ok (u', changed) → motive u') : motive (t.altered done) := by
  refine TypedValue.altered_induction start ?_
  intro u u' changed change member held ran
  obtain ⟨⟨location, change'⟩, inside, rfl⟩ := List.mem_map.mp (among member)
  obtain ⟨pair, paired, equal⟩ := List.mem_map.mp inside
  cases equal
  exact step pair paired u u' changed held ran

theorem removing_induction {motive : TypedValue → Prop} {t : TypedValue} {locations : List Location}
    {done : List Alteration} (among : done ⊆ (removing locations).map (·.2)) (start : motive t)
    (step : ∀ location ∈ locations, ∀ u u' changed, motive u →
      u.removeAt location = .ok (u', changed) → motive u') : motive (t.altered done) := by
  refine TypedValue.altered_induction start ?_
  intro u u' changed change member held ran
  obtain ⟨⟨location, change'⟩, inside, rfl⟩ := List.mem_map.mp (among member)
  obtain ⟨listed, location_mem, equal⟩ := List.mem_map.mp inside
  cases equal
  exact step _ location_mem u u' changed held ran

/-- An edit of a path goes through alterations of its variable, to the end or up to a failure. -/
def Edited (p : Path) (w after : Workspace) (isStream : Bool) (t : TypedValue)
    (changes : List (Location × Alteration)) (r : Except EvalError Nat) : Prop :=
  ∃ done, Left p.base t w.store after.store done ∧ Ended isStream t (changes.map (·.2)) r done

/-- No variable is other than it was. -/
def Untouched (before after : Store) : Prop := ∀ id, after.find? id = before.find? id

theorem find?_of_resolve {world : World} {creating : Bool} {p : Path} {w : Workspace}
    {targets : Targets} (run : (p.resolve world creating).result w = .ok targets) :
    ∃ t, w.store.find? p.base = some t := by
  rw [result_resolve] at run
  obtain ⟨t, peeked, -⟩ := bind_eq_ok.mp run
  exact ⟨t, Store.peek_eq_ok.mp peeked⟩

/-- The part of an edit after its path has been resolved. -/
def changing (base : VariableId) (isStream : Bool) (changes : List (Location × Alteration)) :
    Edit Nat := do
  let (_, store) ← (← Edit.store).fetch base
  Edit.setStore store
  changeEach base isStream changes

/-- Taking the variable to change it marks it, and then the changes are made. -/
theorem run_changing {base : VariableId} (isStream : Bool) (changes : List (Location × Alteration))
    {w : Workspace} {t : TypedValue} (held : w.store.find? base = some t) :
    (changing base isStream changes).result w =
        (changeEach base isStream changes).result { w with store := w.store.mark base } ∧
      (changing base isStream changes).after w =
        (changeEach base isStream changes).after { w with store := w.store.mark base } := by
  have fetched : w.store.fetch base = .ok (t, w.store.mark base) := by
    rw [Store.fetch, Store.peek_eq_ok.mpr held]
    rfl
  constructor
  · simp only [changing, result_bind, result_store, after_store, ok_bind, result_lift, after_lift,
      fetched, result_setStore, after_setStore]
  · simp only [changing, after_bind, result_store, after_store, result_lift, after_lift, fetched,
      result_setStore, after_setStore]

private theorem edited_of_changing {p : Path} (isStream : Bool)
    (changes : List (Location × Alteration)) {w w' : Workspace} {t : TypedValue}
    (same : w'.store = w.store) (held : w.store.find? p.base = some t) :
    Edited p w ((changing p.base isStream changes).after w') isStream t changes
      ((changing p.base isStream changes).result w') := by
  rw [← same] at held
  obtain ⟨result, after⟩ := run_changing isStream changes held
  have started : ({ w' with store := w'.store.mark p.base } : Workspace).store.find? p.base = some t :=
    held
  obtain ⟨done, left, ended⟩ := left_of_changeEach isStream changes started
  rw [result, after]
  refine ⟨done, ⟨left.changed, fun other apart => ?_⟩, ended⟩
  rw [left.others other apart, ← same]
  rfl

/-- Once a path has been resolved and its locations have their values, assigning makes the changes. -/
theorem run_set {world : World} {p : Path} {values : Evaluated} {w : Workspace} {targets : Targets}
    {assigned : List (Location × Slot)} (resolved : (p.resolve world true).result w = .ok targets)
    (paired : assignments targets values = .ok assigned) :
    (p.set world values).result w = (changing p.base targets.isStream (assigning assigned)).result
        ((p.resolve world true).after w) ∧
      (p.set world values).after w = (changing p.base targets.isStream (assigning assigned)).after
        ((p.resolve world true).after w) := by
  constructor
  · rw [set, result_bind, resolved, ok_bind, paired, result_bind, result_lift, ok_bind, after_lift]
    rfl
  · rw [set, after_bind, resolved]
    dsimp only
    rw [paired, after_bind, result_lift, after_lift]
    rfl

/-- What assigning to a path does: nothing, where the path or the pairing of values fails, and
otherwise the assignments in order. -/
theorem set_cases (world : World) (p : Path) (values : Evaluated) (w : Workspace) :
    ((∃ e, (p.set world values).result w = .error e) ∧
        Untouched w.store ((p.set world values).after w).store) ∨
      ∃ targets assigned t, (p.resolve world true).result w = .ok targets ∧
        assignments targets values = .ok assigned ∧ w.store.find? p.base = some t ∧
        Edited p w ((p.set world values).after w) targets.isStream t (assigning assigned)
          ((p.set world values).result w) := by
  have looks := looks_resolve world true p
  cases resolved : (p.resolve world true).result w with
  | error e =>
    refine .inl ⟨⟨e, ?_⟩, fun id => ?_⟩
    · rw [set, result_bind, resolved]
      rfl
    · rw [set, after_bind, resolved]
      exact congrArg (Store.find? · id) (looks.store w)
  | ok targets =>
    cases paired : assignments targets values with
    | error e =>
      refine .inl ⟨⟨e, ?_⟩, fun id => ?_⟩
      · rw [set, result_bind, resolved, ok_bind, paired, result_bind, result_lift]
        rfl
      · rw [set, after_bind, resolved]
        simp only [paired, after_bind, result_lift, after_lift]
        exact congrArg (Store.find? · id) (looks.store w)
    | ok assigned =>
      obtain ⟨t, held⟩ := find?_of_resolve resolved
      refine .inr ⟨targets, assigned, t, rfl, paired, held, ?_⟩
      obtain ⟨result, after⟩ := run_set resolved paired
      rw [result, after]
      exact edited_of_changing targets.isStream (assigning assigned) (looks.store w) held

/-- The removal of a variable as a whole. -/
private theorem removed_variable {p : Path} (world : World) (empty : p.accessors = []) (w : Workspace) :
    ((∃ e, (p.remove world).result w = .error e) ∧
        Untouched w.store ((p.remove world).after w).store) ∨
      ((p.remove world).result w = .ok 1 ∧
        ((p.remove world).after w).store.find? p.base = none ∧
        ∀ other ≠ p.base, ((p.remove world).after w).store.find? other = w.store.find? other) := by
  have last : p.accessors.getLast? = none := by rw [empty]; rfl
  cases removed : w.store.remove p.base with
  | error e =>
    refine .inl ⟨⟨e, ?_⟩, fun id => ?_⟩
    · simp only [remove, last, result_bind, result_store, after_store, ok_bind, removed, result_lift,
        error_bind]
    · simp only [remove, last, after_bind, result_store, after_store, removed, result_lift,
        after_lift]
  | ok taken =>
    obtain ⟨t, s⟩ := taken
    have left := Store.find?_of_remove removed
    have after : ((p.remove world).after w).store = s := by
      simp only [remove, last, after_bind, result_store, after_store, removed, result_lift,
        after_lift, result_setStore, after_setStore, result_change, after_change, after_pure]
    refine .inr ⟨?_, ?_⟩
    · simp only [remove, last, result_bind, result_store, after_store, ok_bind, removed, result_lift,
        after_lift, result_setStore, after_setStore, result_change, after_change, result_pure]
    · rw [after]
      exact left

/-- The removal of slots below a variable. -/
def removingSlots (world : World) (p : Path) : Edit Nat := do
  let targets ← p.resolve world false
  let (_, store) ← (← Edit.store).fetch p.base
  Edit.setStore store
  changeEach p.base targets.isStream <| targets.locations.reverse.map fun location =>
    (location, fun t => t.removeAt location)

/-- Once a path has been resolved, removing makes the changes, the last one first. -/
theorem run_removingSlots {world : World} {p : Path} {w : Workspace} {targets : Targets}
    (resolved : (p.resolve world false).result w = .ok targets) :
    (removingSlots world p).result w =
        (changing p.base targets.isStream (removing targets.locations.reverse)).result
          ((p.resolve world false).after w) ∧
      (removingSlots world p).after w =
        (changing p.base targets.isStream (removing targets.locations.reverse)).after
          ((p.resolve world false).after w) := by
  constructor
  · rw [removingSlots, result_bind, resolved]
    rfl
  · rw [removingSlots, after_bind, resolved]
    rfl

/-- Removing the slots below a variable, where the path does not name half of an entry. -/
theorem remove_eq_removingSlots {world : World} {p : Path} {a : Accessor}
    (last : p.accessors.getLast? = some a) (other : a ≠ .entryKey) (another : a ≠ .entryValue) :
    p.remove world = removingSlots world p := by
  cases a with
  | entryKey => exact absurd rfl other
  | entryValue => exact absurd rfl another
  | _ => simp only [remove, last, removingSlots]

private theorem removed_slots (world : World) (p : Path) (w : Workspace) :
    ((∃ e, (removingSlots world p).result w = .error e) ∧
        Untouched w.store ((removingSlots world p).after w).store) ∨
      ∃ targets t, (p.resolve world false).result w = .ok targets ∧ w.store.find? p.base = some t ∧
        Edited p w ((removingSlots world p).after w) targets.isStream t
          (removing targets.locations.reverse) ((removingSlots world p).result w) := by
  have looks := looks_resolve world false p
  cases resolved : (p.resolve world false).result w with
  | error e =>
    refine .inl ⟨⟨e, ?_⟩, fun id => ?_⟩
    · rw [removingSlots, result_bind, resolved]
      rfl
    · rw [removingSlots, after_bind, resolved]
      exact congrArg (Store.find? · id) (looks.store w)
  | ok targets =>
    obtain ⟨t, held⟩ := find?_of_resolve resolved
    refine .inr ⟨targets, t, rfl, held, ?_⟩
    obtain ⟨result, after⟩ := run_removingSlots resolved
    rw [result, after]
    exact edited_of_changing targets.isStream _ (looks.store w) held

/-- What removing a path does: nothing, where the path fails or names half of an entry; to a path
without accessors, it removes the variable; and otherwise it removes its slots in reverse order. -/
theorem remove_cases (world : World) (p : Path) (w : Workspace) :
    ((∃ e, (p.remove world).result w = .error e) ∧
        Untouched w.store ((p.remove world).after w).store) ∨
      (p.accessors = [] ∧ (p.remove world).result w = .ok 1 ∧
        ((p.remove world).after w).store.find? p.base = none ∧
        ∀ other ≠ p.base, ((p.remove world).after w).store.find? other = w.store.find? other) ∨
      ∃ targets t, p.accessors ≠ [] ∧ (p.resolve world false).result w = .ok targets ∧
        w.store.find? p.base = some t ∧
        Edited p w ((p.remove world).after w) targets.isStream t
          (removing targets.locations.reverse) ((p.remove world).result w) := by
  cases last : p.accessors.getLast? with
  | none =>
    have empty := List.getLast?_eq_none_iff.mp last
    rcases removed_variable world empty w with failed | removed
    · exact .inl failed
    · exact .inr (.inl ⟨empty, removed⟩)
  | some accessor =>
    have some_accessor : p.accessors ≠ [] := by
      intro empty
      rw [empty] at last
      cases last
    have halves (half : accessor = .entryKey ∨ accessor = .entryValue) :
        p.remove world = throw .removeFromEntry := by
      rcases half with rfl | rfl <;> simp only [remove, last]
    by_cases half : accessor = .entryKey ∨ accessor = .entryValue
    · rw [halves half]
      exact .inl ⟨⟨_, rfl⟩, fun _ => rfl⟩
    · rw [remove_eq_removingSlots last (fun key => half (.inl key)) fun value => half (.inr value)]
      rcases removed_slots world p w with failed | ⟨targets, t, resolved, held, edited⟩
      · exact .inl failed
      · exact .inr (.inr ⟨targets, t, some_accessor, resolved, held, edited⟩)

end Path
end Immediate
