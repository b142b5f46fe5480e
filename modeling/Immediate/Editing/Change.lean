import Immediate.Editing.Resolve
/-! Reading and changing stored variables through paths. A change first resolves the path and then
works through the locations one by one. A value is cast to the child type of the container that
takes it. A list grows with empty slots up to an assigned position; removing its last element makes
it shorter, and removing another one leaves an empty slot, so that later positions stay the same. A
slot counts as changed when it holds another value than before. -/
namespace Immediate

namespace Value

/-- Changes the slot at the end of a location, which must be there. The result tells whether
anything changed. -/
def alterAt (f : Slot → Except EvalError (Slot × Bool)) :
    Location → Slot → Except EvalError (Slot × Bool)
  | [], slot => f slot
  | step :: rest, slot =>
    match slot, step with
    | some (.list element items), .index i =>
      match items[i]? with
      | some item => do
        let (item, changed) ← alterAt f rest item
        return (some (.list element (items.set i item)), changed)
      | none => .error (.outOfBounds i items.length)
    | some (.iterator element items), .index i =>
      match items[i]? with
      | some item => do
        let (item, changed) ← alterAt f rest item
        return (some (.iterator element (items.set i item)), changed)
      | none => .error (.outOfBounds i items.length)
    | some (.map keyTy valueTy pairs), .mapKey key =>
      match lookup pairs key with
      | some value => do
        let (value, changed) ← alterAt f rest value
        return (some (.map keyTy valueTy (insert pairs key value)), changed)
      | none => .error (.keyNotFound key)
    | some (.entry keyTy valueTy key value), .entryKey => do
      let (key, changed) ← alterAt f rest key
      return (some (.entry keyTy valueTy key value), changed)
    | some (.entry keyTy valueTy key value), .entryValue => do
      let (value, changed) ← alterAt f rest value
      return (some (.entry keyTy valueTy key value), changed)
    | none, step => .error (.nullOperand (.step step))
    | some other, _ => .error (.notIndexable other.kind)

/-- A slot's new contents and whether they differ; contents that are the same are kept as they
were. -/
def replace (old new : Slot) : Slot × Bool := if sameSlot old new then (old, false) else (new, true)

/-- A sequence with one position set, grown up to it if need be. -/
def setItem (items : List Slot) (position : Nat) (new : Slot) : List Slot × Bool :=
  match items[position]? with
  | some old =>
    let (slot, changed) := replace old new
    (items.set position slot, changed)
  | none => (items ++ List.replicate (position - items.length) none ++ [new], true)

/-- Sets a child of a container, cast to the container's child type. -/
def assignChild (step : Step) (new : Slot) : Slot → Except EvalError (Slot × Bool)
  | none => .error (.nullOperand (.step step))
  | some parent =>
    match parent, step with
    | .list element items, .index i => do
      let (items, changed) := setItem items i (← castSlot element new)
      return (some (.list element items), changed)
    | .iterator element items, .index i => do
      let (items, changed) := setItem items i (← castSlot element new)
      return (some (.iterator element items), changed)
    | .map keyTy valueTy pairs, .mapKey key => do
      let new ← castSlot valueTy new
      match lookup pairs key with
      | some old =>
        let (value, changed) := replace old new
        return (some (.map keyTy valueTy (insert pairs key value)), changed)
      | none => return (some (.map keyTy valueTy (insert pairs key new)), true)
    | .entry keyTy valueTy key value, .entryKey => do
      let (key, changed) := replace key (← castSlot keyTy new)
      return (some (.entry keyTy valueTy key value), changed)
    | .entry keyTy valueTy key value, .entryValue => do
      let (value, changed) := replace value (← castSlot valueTy new)
      return (some (.entry keyTy valueTy key value), changed)
    | other, _ => .error (.notIndexable other.kind)

/-- A sequence without one position: shorter if it was the last, otherwise with an empty slot in
its place. -/
def removeItem (items : List Slot) (position : Nat) : List Slot × Bool :=
  if position + 1 = items.length then (items.dropLast, true)
  else (items.set position none, ((items[position]?).getD none).isSome)

/-- Removes a child of a container. -/
def removeChild (step : Step) : Slot → Except EvalError (Slot × Bool)
  | none => .error (.nullOperand (.step step))
  | some parent =>
    match parent, step with
    | .list element items, .index i =>
      let (items, changed) := removeItem items i
      .ok (some (.list element items), changed)
    | .iterator element items, .index i =>
      let (items, changed) := removeItem items i
      .ok (some (.iterator element items), changed)
    | .map keyTy valueTy pairs, .mapKey key =>
      .ok (some (.map keyTy valueTy (erase pairs key)), (lookup pairs key).isSome)
    | .entry .., _ => .error .removeFromEntry
    | other, _ => .error (.notIndexable other.kind)

end Value

namespace TypedValue

/-- Sets the slot at a location, and tells whether it changed. The value as a whole is cast to the
declared type. -/
def assignAt (t : TypedValue) (location : Location) (new : Slot) :
    Except EvalError (TypedValue × Bool) :=
  match location.getLast? with
  | none => do
    let assigned ← t.assign new
    return (assigned, !Value.sameSlot assigned.slot t.slot)
  | some step => do
    let (slot, changed) ← Value.alterAt (Value.assignChild step new) location.dropLast t.slot
    return (⟨t.ty, slot⟩, changed)

/-- Removes the slot at a location, and tells whether anything changed. -/
def removeAt (t : TypedValue) (location : Location) : Except EvalError (TypedValue × Bool) :=
  match location.getLast? with
  | none => .ok (t, false)
  | some step => do
    let (slot, changed) ← Value.alterAt (Value.removeChild step) location.dropLast t.slot
    return (⟨t.ty, slot⟩, changed)

end TypedValue

namespace Path

/-- Changes a variable at several locations, one after another, and counts those where something
changed. -/
def changeEach (base : VariableId) (isStream : Bool) :
    List (Location × (TypedValue → Except EvalError (TypedValue × Bool))) → Edit Nat
  | [] => return 0
  | (location, change) :: rest => do
    let t ← (← Edit.store).peek base
    match ← Edit.settle isStream (change t) with
    | some (changed, true) => do
      Edit.setStore ((← Edit.store).put base changed)
      Edit.change base location
      return (← changeEach base isStream rest) + 1
    | some (kept, false) => do
      Edit.setStore ((← Edit.store).put base kept)
      changeEach base isStream rest
    | none => changeEach base isStream rest

/-- Which location takes which value: all of them a single one, and a stream of them the values of
a stream in step. -/
def assignments (targets : Targets) : Evaluated → Except EvalError (List (Location × Slot))
  | .single slot => .ok (targets.locations.map fun location => (location, slot))
  | .many slots =>
    if targets.isStream then .ok (targets.locations.zip slots) else .error .manyToSingle

/-- Reads what a path leads to. -/
def read (world : World) (p : Path) : Edit Evaluated := Edit.run world p.code

/-- Assigns to every slot a path leads to, and counts those that changed. The variable is marked
even if none did. -/
def set (world : World) (p : Path) (values : Evaluated) : Edit Nat := do
  let targets ← p.resolve world true
  let assignments ← assignments targets values
  let (_, store) ← (← Edit.store).fetch p.base
  Edit.setStore store
  changeEach p.base targets.isStream <| assignments.map fun (location, new) =>
    (location, fun t => t.assignAt location new)

/-- Removes every slot a path leads to, the last one first, and counts those that changed. A path
without steps removes its variable. -/
def remove (world : World) (p : Path) : Edit Nat := do
  match p.accessors.getLast? with
  | none => do
    let (_, store) ← (← Edit.store).remove p.base
    Edit.setStore store
    Edit.change p.base []
    return 1
  | some .entryKey | some .entryValue => throw .removeFromEntry
  | some _ => do
    let targets ← p.resolve world false
    let (_, store) ← (← Edit.store).fetch p.base
    Edit.setStore store
    changeEach p.base targets.isStream <| targets.locations.reverse.map fun location =>
      (location, fun t => t.removeAt location)

end Path
end Immediate
