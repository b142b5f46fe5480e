import Immediate.EvalError
import Immediate.Ty.Lowering
import Immediate.Value.Coercion
import Immediate.Value.Equality
/-! Casts. Numbers take what counts as a number, text takes scalars and lists of 16-bit units, and
containers cast their contents to their child types. A child type that the target leaves unset is
the source's, or else the joint type of the source's contents. The elements of sequences and the
keys of maps must get a type that way; the values of maps and the halves of entries may stay
untyped, and are then left as they are. -/
namespace Immediate.Value

/-- The error of a value that cannot be cast to a type. -/
def mismatch (target : Ty) (v : Value) : EvalError := .incompatible (.ty target) v.ty

/-- The joint type of values, if there are any; an error names the first two types whose chains do
not meet. -/
def jointTy (values : List Value) : Except EvalError (Option Ty) :=
  values.foldlM (fun joint v =>
    match joint with
    | none => .ok (some v.ty)
    | some t =>
      match Ty.join? t v.ty with
      | some joined => .ok (some joined)
      | none => .error (.incompatible (.ty t) v.ty)) none

/-- The child type a container must have: the target's, the source's, or that of the contents. -/
def requiredTy (error : EvalError) (target source : Option Ty) (contents : List Value) :
    Except EvalError Ty :=
  match target.or source with
  | some t => .ok t
  | none => do
    match ← jointTy contents with
    | some t => .ok t
    | none => .error error

/-- The child type a container may have, found in the same places. -/
def optionalTy (target source : Option Ty) (contents : List Value) :
    Except EvalError (Option Ty) :=
  match target.or source with
  | some t => .ok (some t)
  | none => jointTy contents

/-- Whether a list is text as 16-bit units: one of shorts by declaration or, without one, by its
contents. -/
def isUnitSequence (element : Option Ty) (items : List Slot) : Bool :=
  match element with
  | some t => t.kind = .short
  | none => items.all fun
    | some (.integer .short _) => true
    | _ => false

/-- The text whose 16-bit units the elements of a list count as. -/
def unitText (items : List Slot) : String :=
  Text.ofUnitsLossy <| (items.filterMap id).filterMap fun v =>
    v.toInteger?.map fun n => ⟨BitVec.ofInt 16 n⟩

/-- The text of a value: that of its units for a list of them, the plain one for a scalar. -/
def toText? : Value → Option String
  | .list element items => if isUnitSequence element items then some (unitText items) else none
  | .iterator .. | .map .. | .entry .. => none
  | v => some v.plainText

/-- The value as one of a scalar kind, if it counts as one. -/
def toScalar? (v : Value) : Scalar → Option Value
  | .integer width => v.toInteger?.map (ofInt width)
  | .float => v.toBinary64?.map fun x => .float x.narrow
  | .double => v.toBinary64?.map .double
  | .string => v.toText?.map .string
  | .entity =>
    match v with
    | .entity e => some (.entity e)
    | .string s => (EntityId.ofText? s).map .entity
    | _ => none
  | .position =>
    match v with
    | .position p => some (.position p)
    | _ => none

/-- Casts a value to a scalar kind. -/
def castScalar (s : Scalar) (v : Value) : Except EvalError Value :=
  match v.toScalar? s with
  | some w => .ok w
  | none => .error (mismatch (.scalar s) v)

/-- Casts a value that has no contents to take apart. -/
def castWhole (target : Ty) (v : Value) : Except EvalError Value :=
  match target with
  | .scalar s => castScalar s v
  | _ => .error (mismatch target v)

/-- Casts the 16-bit units of a text, as shorts. -/
def castUnits (target : Ty) (s : String) : Except EvalError (List Slot) :=
  (Text.units s).mapM fun u => some <$> castWhole target (.integer .short u.toBitVec)

/-- The types of the halves of an entry that is cast to a type. -/
def halfTys (target : Ty) (keyTy valueTy : Option Ty) (key value : Slot) :
    Except EvalError (Option Ty × Option Ty) := do
  match target with
  | .entry targetKey targetValue =>
    let keyTy ← optionalTy targetKey keyTy key.toList
    let valueTy ← optionalTy targetValue valueTy value.toList
    return (keyTy, valueTy)
  | _ => .error (mismatch target (.entry keyTy valueTy key value))

/-- The pairs that a sequence of entries makes, unless something else is among them or a key is
missing. -/
def pairsOfEntries? : List Slot → Option (List (Value × Slot))
  | [] => some []
  | some (.entry _ _ (some key) value) :: rest =>
    (pairsOfEntries? rest).map ((key, value) :: ·)
  | _ => none

/-- The child types of the entries that a sequence is declared to hold. -/
def entryTys : Option Ty → Option Ty × Option Ty
  | some (.entry keyTy valueTy) => (keyTy, valueTy)
  | _ => (none, none)

/-- The child types of a map that is cast to one with given child slots. -/
def mapTys (source targetTy : Ty) (target declared : Option Ty × Option Ty)
    (pairs : List (Value × Slot)) : Except EvalError (Ty × Option Ty) := do
  let keyTy ← requiredTy (.incompatible (.ty targetTy) source) target.1 declared.1
    (pairs.map (·.1))
  let valueTy ← optionalTy target.2 declared.2 (pairs.filterMap (·.2))
  return (keyTy, valueTy)

mutual

/-- Casts a value to a type. -/
def cast (target : Ty) : Value → Except EvalError Value
  | v@(.list element items) | v@(.iterator element items) =>
    match target with
    | .scalar s => castScalar s v
    | .list wanted => do
      let t ← requiredTy (mismatch target v) wanted element (items.filterMap id)
      .list (some t) <$> castItems t items
    | .iterator wanted => do
      let t ← requiredTy (mismatch target v) wanted element (items.filterMap id)
      .iterator (some t) <$> castItems t items
    | .map wantedKey wantedValue => do
      let some pairs := pairsOfEntries? items | .error (mismatch target v)
      let (keyTy, valueTy) ←
        mapTys v.ty target (wantedKey, wantedValue) (entryTys element) pairs
      .map (some keyTy) valueTy <$> insertAll [] <$> castEntryPairs keyTy valueTy items
    | .entry .. => .error (mismatch target v)
  | .map keyTy valueTy pairs =>
    match target with
    | .scalar s => castScalar s (.map keyTy valueTy pairs)
    | .list wanted => do
      let t := wanted.getD (.entry keyTy valueTy)
      .list (some t) <$> castPairEntries t keyTy valueTy pairs
    | .iterator wanted => do
      let t := wanted.getD (.entry keyTy valueTy)
      .iterator (some t) <$> castPairEntries t keyTy valueTy pairs
    | .map wantedKey wantedValue => do
      let (newKeyTy, newValueTy) ←
        mapTys (.map keyTy valueTy) target (wantedKey, wantedValue) (keyTy, valueTy) pairs
      .map (some newKeyTy) newValueTy <$> insertAll [] <$> castPairs newKeyTy newValueTy pairs
    | .entry .. => .error (mismatch target (.map keyTy valueTy pairs))
  | .entry keyTy valueTy key value => do
    let (newKeyTy, newValueTy) ← halfTys target keyTy valueTy key value
    let newKey ← castSlot newKeyTy key
    let newValue ← castSlot newValueTy value
    return .entry newKeyTy newValueTy newKey newValue
  | .string s =>
    match target with
    | .list wanted => do
      let t := wanted.getD .short
      .list (some t) <$> castUnits t s
    | .iterator wanted => do
      let t := wanted.getD .short
      .iterator (some t) <$> castUnits t s
    | target => castWhole target (.string s)
  | .integer width n => castWhole target (.integer width n)
  | .float x => castWhole target (.float x)
  | .double x => castWhole target (.double x)
  | .entity e => castWhole target (.entity e)
  | .position p => castWhole target (.position p)

/-- Casts what a slot holds. An empty slot stays empty, and without a target nothing changes. -/
def castSlot (target : Option Ty) : Option Value → Except EvalError (Option Value)
  | none => .ok none
  | some v =>
    match target with
    | none => .ok (some v)
    | some t => some <$> cast t v

/-- Casts the contents of a sequence, in order. -/
def castItems (target : Ty) : List (Option Value) → Except EvalError (List (Option Value))
  | [] => .ok []
  | item :: rest => do
    let item ← castSlot (some target) item
    let rest ← castItems target rest
    return item :: rest

/-- Casts the pairs of a map, in order, each key before its value. -/
def castPairs (keyTy : Ty) (valueTy : Option Ty) :
    List (Value × Option Value) → Except EvalError (List (Value × Option Value))
  | [] => .ok []
  | (key, value) :: rest => do
    let key ← cast keyTy key
    let value ← castSlot valueTy value
    let rest ← castPairs keyTy valueTy rest
    return (key, value) :: rest

/-- Casts the pairs that a sequence of entries makes. -/
def castEntryPairs (keyTy : Ty) (valueTy : Option Ty) :
    List (Option Value) → Except EvalError (List (Value × Option Value))
  | [] => .ok []
  | some (.entry _ _ (some key) value) :: rest => do
    let key ← cast keyTy key
    let value ← castSlot valueTy value
    let rest ← castEntryPairs keyTy valueTy rest
    return (key, value) :: rest
  | _ :: rest => castEntryPairs keyTy valueTy rest

/-- Casts the entries that the pairs of a map make. -/
def castPairEntries (target : Ty) (keyTy valueTy : Option Ty) :
    List (Value × Option Value) → Except EvalError (List (Option Value))
  | [] => .ok []
  | (key, value) :: rest => do
    let (newKeyTy, newValueTy) ← halfTys target keyTy valueTy (some key) value
    let newKey ← match newKeyTy with
      | some t => cast t key
      | none => .ok key
    let newValue ← castSlot newValueTy value
    let rest ← castPairEntries target keyTy valueTy rest
    return some (.entry newKeyTy newValueTy (some newKey) newValue) :: rest

end

end Immediate.Value
