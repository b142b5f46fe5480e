import Immediate.Eval.Arithmetic
import Immediate.Eval.Comparison
import Immediate.Eval.Host
/-! The built-in functions. Each takes one tuple of arguments and gives one value, or a stream of
them. Arguments beyond a function's own are ignored, and missing ones count as null. -/
namespace Immediate.Builtin

/-- The argument at a position, which must not be null. -/
def required (b : Builtin) (args : List Slot) (position : Nat) : Except EvalError Value :=
  match (args[position]?).getD none with
  | some v => .ok v
  | none => .error (.nullOperand (.call b))

/-- The elements of a sequence as entries under their positions. -/
def positionEntries (items : List Slot) : List Slot :=
  items.zipIdx.map fun (item, position) =>
    some (Value.ofHalves (some (Value.int position)) item)

/-- The positions of a sequence. -/
def positions (items : List Slot) : List Slot :=
  (List.range items.length).map fun (position : Nat) => some (Value.int position)

/-- The entries of a map, or the elements of a sequence as entries. -/
def entriesOf : Value → Except EvalError (Operand Slot)
  | .map keyTy valueTy pairs => .ok (.spread (Value.entries keyTy valueTy pairs))
  | .list _ items | .iterator _ items => .ok (.spread (positionEntries items))
  | other => .error (.notIndexable other.kind)

/-- The keys of a map, or the positions of a sequence. -/
def keysOf : Value → Except EvalError (Operand Slot)
  | .map _ _ pairs => .ok (.spread (pairs.map fun pair => some pair.1))
  | .list _ items | .iterator _ items => .ok (.spread (positions items))
  | other => .error (.notIndexable other.kind)

/-- The values of a map, or the elements of a sequence. -/
def valuesOf : Value → Except EvalError (Operand Slot)
  | .map _ _ pairs => .ok (.spread (pairs.map (·.2)))
  | .list _ items | .iterator _ items => .ok (.spread items)
  | other => .error (.notIndexable other.kind)

/-- The number of 16-bit units of a text, or of things in a container. -/
def sizeOf : Value → Except EvalError Value
  | .string s => .ok (Value.int (Text.units s).length)
  | v =>
    match v.count? with
    | some n => .ok (Value.int n)
    | none => .error (.notIndexable v.kind)

/-- A snapshot of a container, or of the 16-bit units of a text. -/
def iteratorOf : Value → Except EvalError Value
  | .list element items | .iterator element items => .ok (.iterator element items)
  | .map keyTy valueTy pairs =>
    .ok (.iterator (some (.entry keyTy valueTy)) (Value.entries keyTy valueTy pairs))
  | .string s => .ok (.iterator (some .short) (Value.unitSlots s))
  | other => .error (.notIndexable other.kind)

/-- The number without its sign. The least integer of a width has no positive counterpart and
stays as it is. -/
def magnitudeOf (v : Value) : Except EvalError Value :=
  match v.ty.chain.find? (·.kind.isNumeric) with
  | none => .error (.incompatible (.ty .double) v.ty)
  | some t => do
    match ← Value.cast t v with
    | .integer width n => return .integer width n.abs
    | .float x => return .float x.magnitude
    | .double x => return .double x.magnitude
    | other => throw (.incompatible (.ty .double) other.ty)

/-- The first of two values if it stands in a wanted order to the second or has none, and the
second otherwise, in the type they join at. -/
def pick (wanted : Ordering → Bool) (left right : Value) : Except EvalError Value :=
  match Ty.join? left.ty right.ty with
  | none => .error (.incompatible (.ty left.ty) right.ty)
  | some t => do
    let order ← Value.order left right
    Value.cast t (if order.all wanted then left else right)

/-- The coordinate an argument counts as. -/
def coordinate (b : Builtin) (args : List Slot) (position : Nat) : Except EvalError Binary64 := do
  let v ← required b args position
  match v.toBinary64? with
  | some x => return x
  | none => throw (.incompatible (.ty .double) v.ty)

/-- The entities a value selects: an entity or the text of one selects itself, another text is a
selector for the host. -/
def select (host : Host) : Value → Except EvalError (Operand Slot)
  | .entity e => .ok (.single (some (.entity e)))
  | .string s =>
    match EntityId.ofText? s with
    | some e => .ok (.single (some (.entity e)))
    | none => do
      let found ← host.select s
      return .spread (found.map fun e => some (.entity e))
  | other => .error (.incompatible (.ty .entity) other.ty)

/-- Where the entity a value stands for is. -/
def positionOf (host : Host) (v : Value) : Except EvalError Value := do
  match ← Value.cast .entity v with
  | .entity e => return .position (← host.positionOf e)
  | other => throw (.incompatible (.ty .entity) other.ty)

/-- A random integer from one value to another, both included, in the width their types join
at. -/
def randomBetween (host : Host) (low high : Value) : Except EvalError Value :=
  match Ty.operable? low.ty high.ty [.range] with
  | none => .error (.incompatible (.ty low.ty) high.ty)
  | some t =>
    match low.toInteger?, high.toInteger? with
    | some first, some last =>
      if first > last then .error (.host (.emptyRange first last))
      else do
        let unit ← host.randomUnit
        let offset := (unit.mul (.ofInt (last - first + 1))).floorInt128
        let n := if first + offset ≤ last then first + offset else last
        return .ofInt t.width (BitVec.ofInt 64 n).toInt
    | _, _ => .error (.incompatible (.ty t) low.ty)

/-- Applies a function to a tuple of arguments. -/
def apply (host : Host) (b : Builtin) (args : List Slot) : Except EvalError (Operand Slot) :=
  let one (v : Value) : Operand Slot := .single (some v)
  match b with
  | .all => .error (.invalidCode .tupleToAll)
  | .key => do
    match ← required b args 0 with
    | .entry _ _ half _ => return .single half
    | other => throw (.notEntry other.kind)
  | .value => do
    match ← required b args 0 with
    | .entry _ _ _ half => return .single half
    | other => throw (.notEntry other.kind)
  | .entries => do entriesOf (← required b args 0)
  | .keys => do keysOf (← required b args 0)
  | .values => do valuesOf (← required b args 0)
  | .size => do one <$> sizeOf (← required b args 0)
  | .iter => do one <$> iteratorOf (← required b args 0)
  | .typeOf =>
    match (args[0]?).getD none with
    | some v => .ok (one (.string v.ty.text))
    | none => .ok (one (.string "null"))
  | .abs => do one <$> magnitudeOf (← required b args 0)
  | .min => do one <$> pick (·.isLE) (← required b args 0) (← required b args 1)
  | .max => do one <$> pick (·.isGE) (← required b args 0) (← required b args 1)
  | .pos => do
    let x ← coordinate b args 0
    let y ← coordinate b args 1
    let z ← coordinate b args 2
    return one (.position ⟨x, y, z⟩)
  | .entityPos => do one <$> positionOf host (← required b args 0)
  | .here => .ok (one (.position host.origin))
  | .entity => do select host (← required b args 0)
  | .random => do
    let unit ← host.randomUnit
    return one (.double unit)
  | .randomRange => do one <$> randomBetween host (← required b args 0) (← required b args 1)

end Immediate.Builtin
