import Immediate.Proofs.Editing.Narrowing
import Immediate.Proofs.Failing
import Immediate.Proofs.Folding
/-! Assigning the same once more. The second time, the path leads nowhere it did not lead before, and
to a slot where the assigned value is already, or where it could not be assigned. -/
namespace Immediate

open Edit Outcome Value

/-! ### Indices evaluated again -/

namespace Selectors

variable {world world' : World} {a : Accessor} {w w' : Workspace}

/-- An index that is a single value makes a single selector. -/
theorem one_of_single {selectors : Selectors}
    (single : ∀ code ∈ a.codes, ∀ s, code.execute (w.store.context world) ≠ .ok (.many s))
    (chosen : (ofAccessor world a).result w = .ok selectors) : ∃ selector, selectors = .one selector := by
  cases selectors with
  | one selector => exact ⟨selector, rfl⟩
  | many several =>
    obtain ⟨code, listed, s, executed, -⟩ := exists_of_many chosen
    exact absurd executed (single code listed s)

/-- A step whose indices ignore a variable and the host evaluates to the same once only that variable has
changed, at whatever moments. -/
theorem result_eq_of_ignores {base : VariableId} (ignores : ∀ code ∈ a.codes, code.Ignores base)
    (others : ∀ id ≠ base, w'.store.find? id = w.store.find? id) :
    (ofAccessor world' a).result w' = (ofAccessor world a).result w := by
  have held : ∀ id ≠ base,
      (w'.store.context world').holding id = (w.store.context world).holding id := by
    intro id apart
    simp only [Store.context, others id apart]
  have executed {code : Code} (listed : code ∈ a.codes) :
      code.execute (w'.store.context world') = code.execute (w.store.context world) :=
    Code.execute_eq_of_ignores (ignores code listed) held
  cases a with
  | allContents | entryKey | entryValue => rfl
  | index code =>
    rw [result_index, result_index, result_run, result_run, executed (by simp [Accessor.codes])]
  | optionalIndex code =>
    rw [result_optionalIndex, result_optionalIndex, result_run, result_run,
      executed (by simp [Accessor.codes])]
  | range first last =>
    have executedLast : last.execute ((w'.store.context world').later first.length) =
        last.execute ((w.store.context world).later first.length) :=
      Code.execute_eq_of_ignores (ignores last (by simp [Accessor.codes])) held
    rw [result_range, result_range, executed (by simp [Accessor.codes]), executedLast]

end Selectors

namespace Path

variable {world world' : World} {p : Path} {w : Workspace} {t : TypedValue} {n : Nat}

/-- Changes that all fail or change nothing leave everything as it was. -/
theorem idle_of_changeEach {base : VariableId} {isStream : Bool}
    {changes : List (Location × Alteration)} (held : w.store.find? base = some t)
    (idle : ∀ change ∈ changes,
      isStream = true ∧ (∃ e, change.2 t = .error e) ∨ change.2 t = .ok (t, false)) :
    (changeEach base isStream changes).result w = .ok 0 ∧
      ((changeEach base isStream changes).after w).changes = w.changes ∧
      ∀ id, ((changeEach base isStream changes).after w).store.find? id = w.store.find? id := by
  induction changes generalizing w with
  | nil => exact ⟨rfl, rfl, fun _ => rfl⟩
  | cons change rest ih =>
    obtain ⟨location, change⟩ := change
    obtain ⟨first, others⟩ := List.forall_mem_cons.mp idle
    rw [result_changeEach_cons held, after_changeEach_cons held]
    rcases first with ⟨rfl, e, failed⟩ | kept
    · dsimp only at failed
      rw [failed]
      exact ih (w := { w with reports := w.reports ++ [e] }) held others
    · dsimp only at kept
      rw [kept]
      have now : (w.store.put base t).find? base = some t := Store.find?_put_self ..
      obtain ⟨result, told, left⟩ := ih (w := { w with store := w.store.put base t }) now others
      refine ⟨result, told, fun id => (left id).trans ?_⟩
      by_cases own : id = base
      · rw [own, held]
        exact now
      · exact Store.find?_put_of_ne w.store t own

/-- Taking the variable for such changes leaves everything as it was, too. -/
theorem idle_of_changing {base : VariableId} {isStream : Bool}
    {changes : List (Location × Alteration)} (held : w.store.find? base = some t)
    (idle : ∀ change ∈ changes,
      isStream = true ∧ (∃ e, change.2 t = .error e) ∨ change.2 t = .ok (t, false)) :
    (changing base isStream changes).result w = .ok 0 ∧
      ((changing base isStream changes).after w).changes = w.changes ∧
      ∀ id, ((changing base isStream changes).after w).store.find? id = w.store.find? id := by
  obtain ⟨result, after⟩ := run_changing isStream changes held
  rw [result, after]
  exact idle_of_changeEach (w := { w with store := w.store.mark base }) held idle

/-- A change that is carried out at a single location was made there. -/
private theorem made_of_changing {base : VariableId} {location : Location} {change : Alteration}
    (held : w.store.find? base = some t)
    (run : (changing base false [(location, change)]).result w = .ok n) :
    ∃ result, change t = .ok result := by
  rw [(run_changing false _ held).1,
    result_changeEach_cons (w := { w with store := w.store.mark base }) held] at run
  cases made : change t with
  | ok result => exact ⟨result, rfl⟩
  | error e =>
    rw [made] at run
    cases run

private theorem assignments_single (targets : Targets) (v : Slot) :
    assignments targets (.single v) = .ok (targets.locations.map fun location => (location, v)) := rfl

/-- An assignment to a single location that is no stream was made there. -/
private theorem made_of_set {targets : Targets} {location : Location} {v : Slot}
    (held : w.store.find? p.base = some t) (resolved : (p.resolve world true).result w = .ok targets)
    (apart : targets.isStream = false) (only : targets.locations = [location])
    (run : (p.set world (.single v)).result w = .ok n) :
    ∃ result, t.assignAt location v = .ok result := by
  rw [(run_set resolved (assignments_single targets v)).1, apart, only] at run
  refine made_of_changing (w := (p.resolve world true).after w) ?_ run
  rw [(looks_resolve world true p).store w]
  exact held

/-- The assignments of one value to all the locations of a path are proper ones. -/
private theorem proper_of_resolve {targets : Targets} {v : Slot} (stored : w.store.Keyed)
    (constants : p.Keyed) (given : SlotKeyed v) (held : w.store.find? p.base = some t)
    (resolved : (p.resolve world true).result w = .ok targets) :
    TypedValue.Proper p.accessors.length (targets.locations.map fun location => (location, v)) := by
  constructor <;> intro pair member <;> obtain ⟨location, inside, rfl⟩ := List.mem_map.mp member
  · exact (mem_of_resolve held resolved location inside).1
  · exact keyed_of_resolve stored constants resolved location inside
  · exact given

/-- Resolving a path again, after assignments to its locations, leads nowhere new. -/
private theorem narrowed_of_resolve (again : World) {w' : Workspace} {t' : TypedValue}
    {done : List (Location × Slot)} {targets : Targets} (stored : w.store.Keyed) (constants : p.Keyed)
    (single : ∀ a ∈ p.accessors, ∀ code ∈ a.codes, ∀ s,
      code.execute (w.store.context world) ≠ .ok (.many s))
    (ignores : ∀ a ∈ p.accessors, ∀ code ∈ a.codes, code.Ignores p.base)
    (held : w.store.find? p.base = some t) (held' : w'.store.find? p.base = some t')
    (others : ∀ id ≠ p.base, w'.store.find? id = w.store.find? id) (runs : t.Runs done t')
    (proper : TypedValue.Proper p.accessors.length done) (keyed' : SlotKeyed t'.slot)
    (among : ∀ pair ∈ done, pair.1 ∈ targets.locations)
    (resolved : (p.resolve world true).result w = .ok targets) :
    ∃ targets', (p.resolve again true).result w' = .ok targets' ∧
      Targets.Narrowed targets targets' := by
  rw [result_resolve, Store.peek_eq_ok.mpr held, ok_bind] at resolved
  rw [result_resolve, Store.peek_eq_ok.mpr held', ok_bind]
  have start : Targets.Narrowed ⟨[[]], false⟩ ⟨[[]], false⟩ := by
    refine ⟨rfl, fun location member => ?_, fun _ => ⟨[], [], rfl, rfl⟩⟩
    cases List.mem_singleton.mp member
    exact ⟨nofun, [], List.mem_cons_self, rfl⟩
  have even : ∀ location ∈ ([[]] : List Location), location.Keyed ∧ location.length = 0 := by
    intro location member
    cases List.mem_singleton.mp member
    exact ⟨nofun, rfl⟩
  refine Targets.narrowed_follow runs proper (stored _ t held) keyed' start ?_ even (Nat.zero_add _)
    among resolved
  intro a member parts selectors chosen
  have first : (Selectors.ofAccessor world a).result w = .ok selectors :=
    (Selectors.result_eq_of_ignores (ignores a member) fun _ _ => rfl).trans chosen
  obtain ⟨selector, rfl⟩ := Selectors.one_of_single (single a member) first
  have keyed := Selectors.keyed_ofAccessor stored (constants a member) first
  refine ⟨selector, rfl, keyed selector List.mem_cons_self, ?_⟩
  exact (Selectors.result_eq_of_ignores (ignores a member) others).trans first

section Second
variable {v : Slot} {targets targets' : Targets}
  (proper : TypedValue.Proper n (targets.locations.map fun location => (location, v)))
  (keyed : SlotKeyed t.slot) (given : SlotKeyed v) (narrowed : Targets.Narrowed targets targets')
include proper keyed narrowed

/-- What is declared at a location of the second time was declared at one of the first time. -/
private theorem declared_before {location' : Location} (member : location' ∈ targets'.locations) :
    location'.Keyed ∧ location'.length = n ∧ ∃ location ∈ targets.locations,
      location.same location' = true ∧
        ∀ known, t.declaredAt? location' = .ok known ↔ t.declaredAt? location = .ok known := by
  obtain ⟨own, location, inside, same⟩ := narrowed.among location' member
  have paired : (location, v) ∈ targets.locations.map fun location => (location, v) :=
    List.mem_map.mpr ⟨location, inside, rfl⟩
  have before := proper.locations _ paired
  have long := proper.long _ paired
  have alike := Location.length_of_same same
  refine ⟨own, alike.symm.trans long, location, inside, same, fun known => ⟨?_, ?_⟩⟩
  · exact TypedValue.declaredAt?_congr keyed own before (Location.same_symm before own same)
  · exact TypedValue.declaredAt?_congr keyed before own same

/-- Where the locations are no stream, the assignment that was made can be made again. -/
private theorem exists_assignAt_again {t' : TypedValue} {location location' : Location}
    (left : t' = t.altered
      ((assigning (targets.locations.map fun location => (location, v))).map (·.2)))
    (only : targets.locations = [location]) (only' : targets'.locations = [location'])
    (made : ∃ result, t.assignAt location v = .ok result) :
    ∃ result, t'.assignAt location' v = .ok result := by
  have member : location' ∈ targets'.locations := by rw [only']; exact List.mem_cons_self
  obtain ⟨own, long, other, inside, -, alike⟩ := declared_before proper keyed narrowed member
  rw [only] at inside
  cases List.mem_singleton.mp inside
  subst left
  have runs := t.runs_succeeded (targets.locations.map fun location => (location, v))
  obtain ⟨known, x, declared, cast⟩ := TypedValue.exists_assignAt_iff.mp made
  exact TypedValue.exists_assignAt_iff.mpr ⟨known, x,
    runs.stays_declared (proper.succeeded t) keyed own long ((alike known).mpr declared), cast⟩

include given

/-- At every location of the second time the assignment fails or changes nothing. -/
private theorem settled_of_narrowed {t' : TypedValue} {location' : Location}
    (left : t' = t.altered
      ((assigning (targets.locations.map fun location => (location, v))).map (·.2)))
    (member : location' ∈ targets'.locations) :
    (∃ e, t'.assignAt location' v = .error e) ∨ t'.assignAt location' v = .ok (t', false) := by
  obtain ⟨own, long, location, inside, same, alike⟩ := declared_before proper keyed narrowed member
  subst left
  have runs := t.runs_succeeded (targets.locations.map fun location => (location, v))
  have done := proper.succeeded t
  refine runs.settled done keyed own given long fun possible => ?_
  obtain ⟨known, x, declared, cast⟩ := TypedValue.exists_assignAt_iff.mp possible
  have first := (alike known).mp (runs.declared done long declared)
  have made := TypedValue.mem_succeeded proper keyed (List.mem_map.mpr ⟨location, inside, rfl⟩)
    (TypedValue.exists_assignAt_iff.mpr ⟨known, x, first, cast⟩)
  refine Location.lastTo_of_mem (fun pair listed => ?_) made same
  obtain ⟨other, -, rfl⟩ := List.mem_map.mp (t.succeeded_subset _ listed)
  rfl

/-- All that a second time assigns fails in a stream or changes nothing: a single location would have
been assigned to the first time, and can be again. -/
private theorem idle_of_narrowed {t' : TypedValue}
    (left : t' = t.altered
      ((assigning (targets.locations.map fun location => (location, v))).map (·.2)))
    (made : ∀ location, targets.isStream = false → targets.locations = [location] →
      ∃ result, t.assignAt location v = .ok result) :
    ∀ change ∈ assigning (targets'.locations.map fun location => (location, v)),
      targets'.isStream = true ∧ (∃ e, change.2 t' = .error e) ∨ change.2 t' = .ok (t', false) := by
  intro change member
  obtain ⟨pair, paired, rfl⟩ := List.mem_map.mp member
  obtain ⟨location', inside, rfl⟩ := List.mem_map.mp paired
  rcases settled_of_narrowed proper keyed given narrowed left inside with ⟨e, failed⟩ | kept
  · refine .inl ⟨?_, e, failed⟩
    by_contra apart
    rw [Bool.not_eq_true, narrowed.isStream] at apart
    obtain ⟨location, other, only, only'⟩ := narrowed.single apart
    obtain ⟨result, again⟩ := exists_assignAt_again proper keyed narrowed left only only'
      (made location apart only)
    rw [only'] at inside
    cases List.mem_singleton.mp inside
    rw [failed] at again
    cases again
  · exact .inr kept

end Second

/-- Assigning the same to a path a second time changes nothing and tells nobody, whoever is the host
then, if its indices are single values that ignore its variable and the host. -/
theorem idle_of_set_again {v : Slot} (stored : w.store.Keyed) (constants : p.Keyed) (given : SlotKeyed v)
    (single : ∀ a ∈ p.accessors, ∀ code ∈ a.codes, ∀ s,
      code.execute (w.store.context world) ≠ .ok (.many s))
    (ignores : ∀ a ∈ p.accessors, ∀ code ∈ a.codes, code.Ignores p.base)
    (run : (p.set world (.single v)).result w = .ok n) (again : World) :
    let w' := (p.set world (.single v)).after w
    (p.set again (.single v)).result w' = .ok 0 ∧
      ((p.set again (.single v)).after w').changes = w'.changes ∧
      ∀ id, ((p.set again (.single v)).after w').store.find? id = w'.store.find? id := by
  intro w'
  rcases set_cases world p (.single v) w with ⟨⟨e, failed⟩, -⟩ |
    ⟨targets, assigned, t, resolved, paired, held, done, left, ended⟩
  · rw [run] at failed
    cases failed
  · have finished : done = (assigning assigned).map (·.2) := by
      rw [run] at ended
      cases ended
      rfl
    rw [finished] at left
    cases paired
    obtain ⟨t', whole⟩ : ∃ t', t' = t.altered
        ((assigning (targets.locations.map fun location => (location, v))).map (·.2)) := ⟨_, rfl⟩
    have changed : w'.store.find? p.base = some t' := whole ▸ left.changed
    have runs : t.Runs (t.succeeded (targets.locations.map fun location => (location, v))) t' :=
      whole ▸ t.runs_succeeded _
    have keyed := stored _ t held
    have proper := proper_of_resolve stored constants given held resolved
    have values : Evaluated.Keyed (.single v) := List.forall_mem_singleton.mpr given
    have after : w'.store.Keyed := keyed_of_set stored constants values
    obtain ⟨targets', resolved', narrowed⟩ := narrowed_of_resolve again stored constants single ignores
      held changed left.others runs (proper.succeeded t) (after _ _ changed)
      (fun pair member => by
        obtain ⟨location, inside, rfl⟩ := List.mem_map.mp (t.succeeded_subset _ member)
        exact inside) resolved
    have idle := idle_of_narrowed proper keyed given narrowed whole fun location apart only =>
      made_of_set held resolved apart only run
    have looks := looks_resolve again true p
    have looked := changed
    rw [← looks.store w'] at looked
    obtain ⟨result, final⟩ := run_set resolved' (assignments_single targets' v)
    obtain ⟨nothing, told, kept⟩ := idle_of_changing looked idle
    rw [result, final]
    refine ⟨nothing, told.trans (looks.changes w'), fun id => (kept id).trans ?_⟩
    exact congrArg (Store.find? · id) (looks.store w')

/-- A pattern selects the first and the last of three maps for a 7, and then none of them. -/
theorem idle_of_set_again_pattern :
    let id : VariableId := ⟨"a", "b"⟩
    let entry (n : Nat) : Value := .map (some .int) (some .int) [(.integer .int 1, some (.integer .int n))]
    let w : Workspace := .of (Store.empty.put id ⟨.list (some (.map (some .int) (some .int))),
      some (.list (some (.map (some .int) (some .int))) [some (entry 5), some (entry 6), some (entry 5)])⟩)
    let p : Path := ⟨id, [.index [.constant (some (entry 5))], .index [.constant (some (.integer .int 1))]]⟩
    let seven : Slot := some (.integer .int 7)
    let w' := (p.set .detached (.single seven)).after w
    (p.set .detached (.single seven)).result w = .ok 2 ∧
      (p.resolve .detached true).result w' = .ok ⟨[], true⟩ ∧
      (p.set .detached (.single seven)).result w' = .ok 0 ∧
      ((p.set .detached (.single seven)).after w').changes = w'.changes ∧
      ∀ other, ((p.set .detached (.single seven)).after w').store.find? other = w'.store.find? other := by
  intro id entry w p seven w'
  have run : (p.set .detached (.single seven)).result w = .ok 2 := rfl
  have empty : Store.empty.Keyed := nofun
  have stored : w.store.Keyed := empty.put id (by decide)
  have codes : ∀ a ∈ p.accessors, ∀ code ∈ a.codes, ∃ slot, SlotKeyed slot ∧ code = [.constant slot] := by
    intro a member code inside
    rcases List.mem_pair.mp member with rfl | rfl <;> cases List.mem_singleton.mp inside
    · exact ⟨some (entry 5), by decide, rfl⟩
    · exact ⟨some (.integer .int 1), by decide, rfl⟩
  have constants : p.Keyed := by
    intro a member code inside slot among
    obtain ⟨only, keyed, rfl⟩ := codes a member code inside
    cases List.mem_singleton.mp among
    exact keyed
  obtain ⟨again, told, kept⟩ := idle_of_set_again stored constants (by decide)
    (fun a member code inside s many => by
      obtain ⟨only, -, rfl⟩ := codes a member code inside
      cases many)
    (fun a member code inside i listed asks => by
      obtain ⟨only, -, rfl⟩ := codes a member code inside
      cases List.mem_singleton.mp listed
      cases asks)
    run .detached
  exact ⟨run, rfl, again, told, kept⟩

end Path
end Immediate
