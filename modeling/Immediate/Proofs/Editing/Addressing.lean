import Mathlib.Data.List.Forall2
import Immediate.Proofs.Editing.Reading
import Immediate.Proofs.Stores
/-! Reading and resolving go along a path in step. What they are kept in step by is that the
locations lead, in order, to the values read so far; one written step keeps that, and so does a whole
path. Where a reading fails, resolving fails too or is left without a location. -/
namespace Immediate

open Edit Outcome

namespace Value

/-- Locations lead from a slot to these slots, one each. -/
def Reach (root : Slot) (locations : List Location) (slots : List Slot) : Prop :=
  List.Forall₂ (fun location slot => at? location root = .ok slot) locations slots

/-- Steps below a location lead where they lead below its slot. -/
theorem reach_below {root slot : Slot} {location : Location} {steps : List Step}
    {slots : List Slot} (there : at? location root = .ok slot) (leads : Leads slot steps slots) :
    Reach root (steps.map fun step => location ++ [step]) slots := by
  refine List.forall₂_map_left_iff.mpr (leads.imp fun step child read => ?_)
  rw [at?_append, there, ok_bind, read]

theorem mapM_of_reach {root : Slot} {locations : List Location} {slots : List Slot}
    (reach : Reach root locations slots) :
    locations.mapM (fun location => at? location root) = .ok slots := by
  induction reach with
  | nil => rfl
  | cons there _ ih =>
    rw [List.mapM_cons, there, ok_bind, ih, ok_bind]
    rfl

end Value

/-- A selector that makes a stream of locations whatever is there reads no single value. -/
theorem Selector.spreads_of_fans (slot : Slot) (selector : Selector)
    (strict : ∀ index, selector ≠ .optional index) (fans : (Selectors.one selector).fans = true)
    (child : Slot) : selector.read slot ≠ .ok (.single child) := by
  intro read
  cases selector with
  | all =>
    cases slot with
    | none => cases read
    | some v => cases v <;> cases read
  | range first last =>
    cases slot with
    | none => cases first <;> cases last <;> cases read
    | some v =>
      cases first with
      | none => cases last <;> cases read
      | some low =>
        cases last with
        | none => cases read
        | some high =>
          cases v with
          | list | iterator =>
            obtain ⟨bounds, -, spread⟩ := bind_eq_ok.mp read
            cases spread
          | _ => cases read
  | optional index => exact strict index rfl
  | index | entryKey | entryValue => cases fans

/-- None of the selectors is a lenient one. -/
def Selectors.Strict (selectors : Selectors) : Prop :=
  ∀ selector ∈ selectors.each, ∀ index, selector ≠ .optional index

theorem Selectors.strict_of_ofAccessor {world : World} {w : Workspace} {a : Accessor}
    {selectors : Selectors} (strict : ∀ code, a ≠ .optionalIndex code)
    (chosen : (Selectors.ofAccessor world a).result w = .ok selectors) : selectors.Strict := by
  intro selector member index same
  have gives := Selectors.gives_of_ofAccessor chosen selector member
  rw [same] at gives
  cases gives with
  | optional code => exact strict code rfl

namespace Targets

/-- The locations lead to what has been read, and are a stream if that is one. -/
inductive LeadTo (root : Slot) : Targets → Evaluated → Prop where
  | single {location : Location} {slot : Slot} (there : Value.at? location root = .ok slot) :
    LeadTo root ⟨[location], false⟩ (.single slot)
  | many {locations : List Location} {slots : List Slot} (reach : Value.Reach root locations slots) :
    LeadTo root ⟨locations, true⟩ (.many slots)

/-- What came of reading and what came of resolving agree. Where the locations are a stream, errors
are passed over, and a failed reading shows as no location at all. -/
inductive Agree (root : Slot) : Except EvalError Evaluated → Except EvalError Targets → Prop where
  | leads {targets : Targets} {evaluated : Evaluated} (leads : LeadTo root targets evaluated) :
    Agree root (.ok evaluated) (.ok targets)
  | failed {e e' : EvalError} : Agree root (.error e) (.error e')
  | nowhere {e : EvalError} {isStream : Bool} : Agree root (.error e) (.ok ⟨[], isStream⟩)

/-- A location and the slot there, with the same selector, which is not a lenient one. -/
structure Paired (root : Slot) (pair : Location × Selector) (source : Slot × Selector) : Prop where
  there : Value.at? pair.1 root = .ok source.1
  same : source.2 = pair.2
  strict : ∀ index, pair.2 ≠ .optional index

theorem paired_zip {root : Slot} {locations : List Location} {slots : List Slot}
    {selectors : List Selector} (reach : Value.Reach root locations slots)
    (strict : ∀ selector ∈ selectors, ∀ index, selector ≠ .optional index) :
    List.Forall₂ (Paired root) (locations.zip selectors) (slots.zip selectors) := by
  induction reach generalizing selectors with
  | nil => exact .nil
  | cons there _ ih =>
    cases selectors with
    | nil => exact .nil
    | cons selector rest =>
      exact .cons ⟨there, rfl, strict selector List.mem_cons_self⟩
        (ih fun other member => strict other (List.mem_cons_of_mem _ member))

/-! ### One step -/

section Step
variable {root : Slot} (w : Workspace) (keyed : Value.SlotKeyed root)
include keyed

/-- What is found at one location agrees with what is read there. -/
theorem agrees_found {location : Location} {slot : Slot} {selector : Selector}
    (paired : Paired root (location, selector) (slot, selector)) :
    Value.Agrees slot (selector.read slot) (found false root location selector) := by
  have there : Value.at? location root = .ok slot := paired.there
  rw [found, there]
  exact Value.agrees_selected (Value.keyed_at? keyed there) paired.strict

/-- In a stream every location gives its own further ones, and those that fail give none. -/
theorem stepFrom_stream {pairs : List (Location × Selector)} {sources : List (Slot × Selector)}
    (paired : List.Forall₂ (Paired root) pairs sources) {locations : List Location}
    {slots : List Slot} (reach : Value.Reach root locations slots) :
    ∃ further, (stepFrom false root ⟨locations, true⟩ pairs).result w = .ok ⟨further, true⟩ ∧
      Value.Reach root further (slots ++
        sources.flatMap fun (slot, selector) => Operand.yields (selector.read slot)) := by
  induction paired generalizing locations slots with
  | nil =>
    refine ⟨locations, rfl, ?_⟩
    rwa [List.flatMap_nil, List.append_nil]
  | @cons pair source pairs sources first others ih =>
    obtain ⟨location, selector⟩ := pair
    obtain ⟨slot, selector'⟩ := source
    obtain rfl : selector' = selector := first.same
    rw [result_stepFrom_cons, List.flatMap_cons, ← List.append_assoc]
    have there : Value.at? location root = .ok slot := first.there
    have agrees := agrees_found keyed first
    dsimp only
    revert agrees
    generalize selector'.read slot = reading
    generalize found false root location selector' = finding
    intro agrees
    cases agrees with
    | failed =>
      dsimp only [Operand.yields]
      rw [List.append_nil]
      exact ih reach
    | single leads =>
      exact ih (List.rel_append reach (Value.reach_below there (.cons leads .nil)))
    | many leads =>
      exact ih (List.rel_append reach (Value.reach_below there leads))

/-- A single location gives what its selector reads. -/
theorem stepFrom_single {location : Location} {slot : Slot} {selector : Selector}
    (paired : Paired root (location, selector) (slot, selector)) (fans : Bool)
    (many : fans = true → ∀ child, selector.read slot ≠ .ok (.single child)) :
    Agree root (Operand.drained (selector.read slot))
      ((stepFrom false root ⟨[], fans⟩ [(location, selector)]).result w) := by
  rw [result_stepFrom_cons]
  have there : Value.at? location root = .ok slot := paired.there
  have agrees := agrees_found keyed paired
  revert agrees many
  generalize selector.read slot = reading
  generalize found false root location selector = finding
  intro many agrees
  cases agrees with
  | failed =>
    cases fans with
    | true => exact .nowhere
    | false => exact .failed
  | @single step child leads =>
    cases fans with
    | true => exact absurd rfl (many rfl child)
    | false =>
      refine .leads (.single ?_)
      rw [Value.at?_append, there]
      exact leads
  | @many s steps leads =>
    have led := Value.reach_below there leads
    cases fans <;> exact .leads (.many led)

/-- One written step keeps reading and resolving together. -/
theorem agree_stepFrom {targets : Targets} {evaluated : Evaluated} {selectors : Selectors}
    (leadTo : LeadTo root targets evaluated) (strict : selectors.Strict) :
    Agree root (selectors.read evaluated)
      ((stepFrom false root ⟨[], targets.isStream || selectors.fans⟩
        (targets.pairUp selectors)).result w) := by
  have streams {pairs : List (Location × Selector)} {sources : List (Slot × Selector)}
      (paired : List.Forall₂ (Paired root) pairs sources) :
      Agree root (.ok (.many (sources.flatMap fun (slot, selector) =>
        Operand.yields (selector.read slot))))
        ((stepFrom false root ⟨[], true⟩ pairs).result w) := by
    obtain ⟨further, stepped, reach⟩ := stepFrom_stream w keyed paired .nil
    rw [stepped]
    exact .leads (.many reach)
  cases selectors with
  | one selector =>
    have plain : ∀ index, selector ≠ .optional index := strict selector List.mem_cons_self
    cases leadTo with
    | single there =>
      exact stepFrom_single w keyed ⟨there, rfl, plain⟩ _
        (selector.spreads_of_fans _ plain)
    | many reach =>
      refine streams ?_
      refine List.forall₂_map_left_iff.mpr (List.forall₂_map_right_iff.mpr ?_)
      exact reach.imp fun location slot there => ⟨there, rfl, plain⟩
  | many selectors =>
    cases leadTo with
    | @single location slot there =>
      have spread : pairUp ⟨[location], false⟩ (.many selectors) =
          selectors.map fun selector => (location, selector) := List.append_nil _
      rw [spread]
      refine streams ?_
      refine List.forall₂_map_left_iff.mpr (List.forall₂_map_right_iff.mpr ?_)
      exact List.forall₂_same.mpr fun selector member => ⟨there, rfl, strict selector member⟩
    | many reach => exact streams (paired_zip reach strict)

end Step

/-! ### A whole path -/

theorem nowhere_follow (world : World) (root : Slot) (w : Workspace) (isStream : Bool)
    (accessors : List Accessor) {targets : Targets}
    (run : (follow world false root ⟨[], isStream⟩ accessors).result w = .ok targets) :
    targets.locations = [] := by
  induction accessors generalizing world isStream with
  | nil =>
    cases run
    rfl
  | cons accessor rest ih =>
    rw [result_follow_cons] at run
    obtain ⟨selectors, -, stepped⟩ := bind_eq_ok.mp run
    have nothing : pairUp ⟨[], isStream⟩ selectors = [] := by
      cases selectors with
      | one => rfl
      | many => cases isStream <;> rfl
    rw [nothing] at stepped
    exact ih _ _ stepped

/-- Reading on from an operand and following on from the locations that lead to it agree. -/
theorem agree_follow {world : World} {w : Workspace} {root : Slot} (keyed : Value.SlotKeyed root)
    {accessors : List Accessor}
    (strict : ∀ code, Accessor.optionalIndex code ∉ accessors)
    (bounds : Accessor.SingleBoundsAlong (w.store.context world) accessors)
    {targets : Targets} {target : Operand Slot} (leadTo : LeadTo root targets target.drain.2) :
    Agree root
      (Operand.drained (Accessor.readAlong (w.store.context world) target accessors))
      ((follow world false root targets accessors).result w) := by
  induction accessors generalizing world targets target with
  | nil => exact .leads leadTo
  | cons a rest ih =>
    have step := Accessor.drained_readFrom bounds.1 target
    rw [Accessor.readAlong, result_follow_cons]
    cases chosen : (Selectors.ofAccessor world a).result w with
    | error e =>
      rw [chosen, error_bind] at step
      cases read : a.readFrom (w.store.context world) target with
      | error e' => exact .failed
      | ok operand =>
        rw [read] at step
        cases step
    | ok selectors =>
      have plain : selectors.Strict :=
        Selectors.strict_of_ofAccessor (fun code same => strict code (same ▸ List.mem_cons_self)) chosen
      have agree := agree_stepFrom w keyed leadTo plain
      rw [chosen, ok_bind] at step
      rw [← step] at agree
      rw [ok_bind, Bool.false_and]
      generalize a.readFrom (w.store.context world) target = reading at agree ⊢
      generalize (stepFrom false root ⟨[], targets.isStream || selectors.fans⟩
        (targets.pairUp selectors)).result w = stepped at agree ⊢
      cases reading with
      | error e =>
        change Agree root (.error e) stepped at agree
        cases agree with
        | failed => exact .failed
        | @nowhere _ isStream =>
          change Agree root (.error e)
            ((follow (world.later a.code.length) false root ⟨[], isStream⟩ rest).result w)
          cases run : (follow (world.later a.code.length) false root ⟨[], isStream⟩ rest).result w with
          | error e' => exact .failed
          | ok targets =>
            obtain ⟨locations, isStream⟩ := targets
            cases nowhere_follow _ root w _ rest run
            exact .nowhere
      | ok operand =>
        change Agree root (.ok operand.drain.2) stepped at agree
        cases agree with
        | leads onward =>
          exact ih (fun code member => strict code (List.mem_cons_of_mem _ member))
            bounds.2 onward

end Targets

namespace Path

theorem result_read (world : World) (p : Path) (w : Workspace) :
    (p.read world).result w = Operand.drained (p.code.execute (w.store.context world)) :=
  result_run world p.code w

/-- The bounds of the ranges in a path are single values. -/
def SingleBounds (context : Context) (p : Path) : Prop :=
  Accessor.SingleBoundsAlong (context.later 1) p.accessors

/-- Reading and resolving start alike, at the variable, and each written step keeps them together. -/
theorem agree_of_find {world : World} {w : Workspace} {p : Path} {t : TypedValue}
    (balanced : p.Balanced) (strict : ∀ code, Accessor.optionalIndex code ∉ p.accessors)
    (bounds : p.SingleBounds (w.store.context world))
    (keyed : Value.SlotKeyed t.slot) (held : w.store.find? p.base = some t) :
    Targets.Agree t.slot ((p.read world).result w) ((p.resolve world false).result w) := by
  have loaded : (w.store.context world).load p.base = .ok t.slot := by
    simp only [Context.load, Store.context, held, Option.map_some]
  have start : Targets.LeadTo t.slot ⟨[[]], false⟩ (Operand.single t.slot).drain.2 := .single rfl
  rw [result_read, execute_code balanced, result_resolve, loaded, Store.peek_eq_ok.mpr held, ok_bind,
    ok_bind]
  exact Targets.agree_follow keyed strict bounds start

/-- A change addresses the slots that a reading of the same path reads, in the order in which they are
read. Indices and bounds are those of compiled paths, each of which leaves one operand, and no index
is lenient. The answers of the host may change on the way, but are the same for both. -/
theorem resolve_of_read {world : World} {w : Workspace} {p : Path} (balanced : p.Balanced)
    (strict : ∀ code, Accessor.optionalIndex code ∉ p.accessors)
    (bounds : p.SingleBounds (w.store.context world))
    (keyed : ∀ t, w.store.find? p.base = some t → Value.SlotKeyed t.slot) :
    (∀ evaluated, (p.read world).result w = .ok evaluated →
      ∃ t targets, w.store.find? p.base = some t ∧ (p.resolve world false).result w = .ok targets ∧
        targets.locations.mapM (fun location => Value.at? location t.slot) = .ok evaluated.values ∧
        (targets.isStream = false ↔ ∃ slot, evaluated = .single slot)) ∧
      ∀ e targets, (p.read world).result w = .error e →
        (p.resolve world false).result w = .ok targets → targets.locations = [] := by
  cases found : w.store.find? p.base with
  | none =>
    have missing : w.store.peek p.base = .error (.notFound p.base) := by
      simp only [Store.peek, found]
    have absent : (w.store.context world).load p.base = .error (.notFound p.base) := by
      simp only [Context.load, Store.context, found, Option.map_none]
    rw [result_read, execute_code balanced, result_resolve, absent, missing]
    constructor
    · intro evaluated impossible
      cases impossible
    · intro _ targets _ impossible
      cases impossible
  | some t =>
    have agree := agree_of_find balanced strict bounds (keyed t found) found
    generalize (p.read world).result w = reading at agree ⊢
    generalize (p.resolve world false).result w = resolving at agree ⊢
    cases agree with
    | @leads targets evaluated leadTo =>
      constructor
      · intro evaluated' read
        cases read
        refine ⟨t, targets, rfl, rfl, ?_⟩
        cases leadTo with
        | single there =>
          exact ⟨Value.mapM_of_reach (.cons there .nil), fun _ => ⟨_, rfl⟩, fun _ => rfl⟩
        | many reach =>
          refine ⟨Value.mapM_of_reach reach, fun lone => ?_, fun lone => ?_⟩
          · cases lone
          · obtain ⟨slot, impossible⟩ := lone
            cases impossible
      · intro _ _ impossible
        cases impossible
    | failed =>
      constructor
      · intro _ impossible
        cases impossible
      · intro _ _ _ impossible
        cases impossible
    | nowhere =>
      constructor
      · intro _ impossible
        cases impossible
      · intro _ targets _ resolved
        cases resolved
        rfl

/-- In a list of lists the second elements are read, and a change addresses them, wherever there is
one. -/
theorem resolve_of_read_partly :
    let id : VariableId := ⟨"a", "b"⟩
    let number (n : Nat) : Slot := some (.integer .int n)
    let slot : Slot := some (.list none
      [some (.list none [number 1, number 2]), some (.list none [number 3]),
        some (.list none [number 4, number 5])])
    let w : Workspace := .of (Store.empty.put id ⟨.list none, slot⟩)
    let p : Path := ⟨id, [.allContents, .index [.constant (some (.integer .byte 1))]]⟩
    ((p.read .detached).result w = .ok (.many [number 2, number 5])) ∧
      ∃ targets, (p.resolve .detached false).result w = .ok targets ∧
        targets.locations.mapM (fun location => Value.at? location slot) =
          .ok [number 2, number 5] ∧ targets.isStream = true := by
  intro id number slot w p
  have read : (p.read .detached).result w = .ok (.many [number 2, number 5]) := rfl
  have balanced : p.Balanced := by
    intro a member code inside
    rcases List.mem_cons.mp member with rfl | member
    · cases inside
    · cases List.mem_singleton.mp member
      cases List.mem_singleton.mp inside
      rfl
  have strict (code : Code) : Accessor.optionalIndex code ∉ p.accessors := by
    intro member
    rcases List.mem_cons.mp member with impossible | member
    · cases impossible
    · cases List.mem_singleton.mp member
  have bounds : p.SingleBounds (w.store.context .detached) := ⟨trivial, trivial, trivial⟩
  have keyed (t : TypedValue) (held : w.store.find? p.base = some t) : Value.SlotKeyed t.slot := by
    cases held
    decide
  obtain ⟨t, targets, held, resolved, looked, single⟩ :=
    (resolve_of_read balanced strict bounds keyed).1 _ read
  cases held
  refine ⟨read, targets, resolved, looked, eq_true_of_ne_false fun lone => ?_⟩
  obtain ⟨slot, impossible⟩ := single.mp lone
  cases impossible

end Path
end Immediate
