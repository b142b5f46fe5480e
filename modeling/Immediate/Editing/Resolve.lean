import Immediate.Editing.Workspace
/-! Resolving paths. A path is turned into the locations of the slots it leads to in the value that
its variable holds now. An accessor that may lead to many slots (all contents, a range, an optional
index, a pattern, an index that is a stream) makes the locations a stream; an error at one location
of a stream is reported and the location dropped. Each index is evaluated at the moments at which the
code of the whole path would evaluate it. -/
namespace Immediate

/-- A written step whose index has been evaluated. -/
inductive Selector where
  | all
  | index (slot : Slot)
  | optional (slot : Slot)
  | range (first last : Slot)
  | entryKey
  | entryValue

/-- What a written step evaluates to: one selector, or one for each value of a stream. -/
inductive Selectors where
  | one (selector : Selector)
  | many (selectors : List Selector)

/-- Where a path leads: some locations, and whether they form a stream. -/
structure Targets where
  locations : List Location
  isStream : Bool

namespace Selectors

/-- The selectors of an evaluated index. -/
def ofIndex (make : Slot → Selector) : Evaluated → Selectors
  | .single slot => .one (make slot)
  | .many slots => .many (slots.map make)

/-- Whether the locations become a stream whatever the parent holds. -/
def fans : Selectors → Bool
  | .many _ | .one .all | .one (.optional _) | .one (.range ..) => true
  | _ => false

/-- Evaluates the index of a written step. The bounds of a range must be single values. -/
def ofAccessor (world : World) : Accessor → Edit Selectors
  | .allContents => return .one .all
  | .entryKey => return .one .entryKey
  | .entryValue => return .one .entryValue
  | .index code => return ofIndex .index (← Edit.run world code)
  | .optionalIndex code => return ofIndex .optional (← Edit.run world code)
  | .range first last => do
    let context ← Edit.context world
    let low ← (← first.execute context).single?
    let high ← (← last.execute (context.later first.length)).single?
    return .one (.range low high)

end Selectors

namespace Value

/-- What a slot holds at the end of a location below it. -/
def at? : Location → Slot → Except EvalError Slot
  | [], slot => .ok slot
  | step :: rest, slot =>
    match slot, step with
    | some (.list _ items), .index i | some (.iterator _ items), .index i =>
      match items[i]? with
      | some item => at? rest item
      | none => .error (.outOfBounds i items.length)
    | some (.map _ _ pairs), .mapKey key =>
      match lookup pairs key with
      | some value => at? rest value
      | none => .error (.keyNotFound key)
    | some (.entry _ _ key _), .entryKey => at? rest key
    | some (.entry _ _ _ value), .entryValue => at? rest value
    | none, step => .error (.nullOperand (.step step))
    | some other, _ => .error (.notIndexable other.kind)

/-- The steps to the slots that an index addresses below a value, and whether they form a stream.
With `creating`, an element past the end of a list and a missing key count as present. -/
def indexSteps (creating : Bool) (parent : Value) : Slot → Except EvalError (List Step × Bool)
  | none => .error (.nullOperand .index)
  | some index =>
    match parent with
    | .list _ items | .iterator _ items =>
      match index with
      | .map _ _ pattern =>
        let selected := items.zipIdx.filter fun (item, _) => isSelectedBy pattern item
        .ok (selected.map fun (_, i) => .index i, true)
      | index => do
        let i ← listPosition index items.length
        if items.length ≤ i && !creating then
          throw (.outOfBounds i items.length)
        return ([.index i], false)
    | .map keyTy _ pairs => do
      let key ← mapKey keyTy index
      if !creating && (lookup pairs key).isNone then throw (.keyNotFound key)
      return ([.mapKey key], false)
    | other => .error (.notIndexable other.kind)

/-- The steps to consecutive positions. -/
def positionSteps (start stop : Nat) : List Step :=
  ((List.range stop).drop start).map Step.index

/-- The steps to the slots that a selector addresses below a value, and whether they form a
stream. -/
def selectedSteps (creating : Bool) (selector : Selector) :
    Slot → Except EvalError (List Step × Bool)
  | none => .error (.nullOperand .pathStep)
  | some parent =>
    match selector with
    | .all =>
      match parent with
      | .list _ items | .iterator _ items => .ok (positionSteps 0 items.length, true)
      | .map _ _ pairs => .ok (pairs.map fun pair => .mapKey pair.1, true)
      | other => .error (.notIndexable other.kind)
    | .index slot => indexSteps creating parent slot
    | .optional slot =>
      match indexSteps false parent slot with
      | .ok (steps, _) => .ok (steps, true)
      | .error _ => .ok ([], true)
    | .range (some first) (some last) =>
      match parent with
      | .list _ items | .iterator _ items => do
        let (start, stop) ← rangeWithin first last items.length
        return (positionSteps start stop, true)
      | other => .error (.notIndexable other.kind)
    | .range _ _ => .error (.nullOperand .rangeIndex)
    | .entryKey =>
      match parent with
      | .entry .. => .ok ([.entryKey], false)
      | other => .error (.notEntry other.kind)
    | .entryValue =>
      match parent with
      | .entry .. => .ok ([.entryValue], false)
      | other => .error (.notEntry other.kind)

end Value

namespace Targets

/-- The locations a step starts from, each with its selector. A stream of locations goes in step
with a stream of selectors; a single location is taken with every selector. -/
def pairUp (targets : Targets) : Selectors → List (Location × Selector)
  | .one selector => targets.locations.map fun location => (location, selector)
  | .many selectors =>
    if targets.isStream then targets.locations.zip selectors
    else targets.locations.flatMap fun location =>
      selectors.map fun selector => (location, selector)

/-- Goes one step on from each location. -/
def stepFrom (creating : Bool) (root : Slot) :
    Targets → List (Location × Selector) → Edit Targets
  | reached, [] => return reached
  | reached, (location, selector) :: rest => do
    let found : Except EvalError (List Step × Bool) := do
      Value.selectedSteps creating selector (← Value.at? location root)
    match ← Edit.settle reached.isStream found with
    | none => stepFrom creating root reached rest
    | some (steps, isStream) =>
      let further := steps.map fun step => location ++ [step]
      stepFrom creating root ⟨reached.locations ++ further, reached.isStream || isStream⟩ rest

/-- Goes along written steps. With `creating`, the last one may name what is not there yet. -/
def follow (world : World) (creating : Bool) (root : Slot) :
    Targets → List Accessor → Edit Targets
  | targets, [] => return targets
  | targets, accessor :: rest => do
    let selectors ← Selectors.ofAccessor world accessor
    let reached ← stepFrom (creating && rest.isEmpty) root
      ⟨[], targets.isStream || selectors.fans⟩ (targets.pairUp selectors)
    follow (world.later accessor.code.length) creating root reached rest

end Targets

/-- The locations a path leads to. -/
def Path.resolve (world : World) (creating : Bool) (p : Path) : Edit Targets := do
  let root ← (← Edit.store).peek p.base
  Targets.follow (world.later 1) creating root.slot ⟨[[]], false⟩ p.accessors

end Immediate
