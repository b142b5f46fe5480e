import Immediate.Eval.Comparison
/-! Indexing. A number selects one element of a list and must lie within it. A map used as an
index of a list is a pattern: it selects every map that has each of its keys with an equal value.
An index of a map is a key, cast to the map's key type. A range is inclusive and is cut to the
list's bounds. -/
namespace Immediate.Value

/-- The position a numeric index names; it may lie past the end, but not before the start. -/
def listPosition (index : Value) (length : Nat) : Except EvalError Nat :=
  if !index.kind.isNumeric then .error (.incompatible (.ty .int) index.ty)
  else
    let n := index.toInteger?.getD 0
    if n < 0 then .error (.outOfBounds n length) else .ok n.toNat

/-- The key an index names in a map with a declared key type. -/
def mapKey (keyTy : Option Ty) (index : Value) : Except EvalError Value :=
  match keyTy with
  | some t => cast t index
  | none => .ok index

/-- Whether one pair of a pattern is found in a map. -/
def hasEqual (keyTy : Option Ty) (pairs : List (Value × Slot)) (wanted : Value × Slot) : Bool :=
  match mapKey keyTy wanted.1 with
  | .ok key =>
    match lookup pairs key with
    | some found => slotsEqual found wanted.2
    | none => false
  | .error _ => false

/-- Whether an element is a map that a pattern selects. -/
def isSelectedBy (pattern : List (Value × Slot)) : Slot → Bool
  | some (.map keyTy _ pairs) => pattern.all (hasEqual keyTy pairs)
  | _ => false

/-- The first position of an inclusive range and the first one after it, cut to a length. -/
def rangeWithin (first last : Value) (length : Nat) : Except EvalError (Nat × Nat) :=
  if !first.kind.isNumeric then .error (.incompatible (.ty .int) first.ty)
  else if !last.kind.isNumeric then .error (.incompatible (.ty .int) last.ty)
  else
    let low := max (first.toInteger?.getD 0) 0
    let high := min (last.toInteger?.getD 0) (length - 1)
    if low > high then .ok (0, 0) else .ok (low.toNat, high.toNat + 1)

/-- All elements of a sequence, or all values of a map. -/
def allContents : Slot → Except EvalError (Operand Slot)
  | none => .error (.nullOperand .allContents)
  | some (.list _ items) | some (.iterator _ items) => .ok (.spread items)
  | some (.map _ _ pairs) => .ok (.spread (pairs.map (·.2)))
  | some other => .error (.notIndexable other.kind)

/-- What an index selects from a value. -/
def indexed : Slot → Slot → Except EvalError (Operand Slot)
  | some target, some index =>
    match target with
    | .list _ items | .iterator _ items =>
      match index with
      | .map _ _ pattern => .ok (.spread (items.filter (isSelectedBy pattern)))
      | index => do
        let position ← listPosition index items.length
        match items[position]? with
        | some item => return .single item
        | none => throw (.outOfBounds position items.length)
    | .map keyTy _ pairs => do
      let key ← mapKey keyTy index
      match lookup pairs key with
      | some value => return .single value
      | none => throw (.keyNotFound key)
    | other => .error (.notIndexable other.kind)
  | _, _ => .error (.nullOperand .index)

/-- What an index selects from a value; nothing if it cannot. -/
def optionallyIndexed (target index : Slot) : Except EvalError (Operand Slot) :=
  match indexed target index with
  | .ok operand => .ok operand
  | .error _ => .ok (.spread [])

/-- The elements in a range of a sequence. -/
def rangeIndexed : Slot → Slot → Slot → Except EvalError (Operand Slot)
  | some target, some first, some last =>
    match target with
    | .list _ items | .iterator _ items => do
      let (start, stop) ← rangeWithin first last items.length
      return .spread ((items.take stop).drop start)
    | other => .error (.notIndexable other.kind)
  | _, _, _ => .error (.nullOperand .rangeIndex)

end Immediate.Value
