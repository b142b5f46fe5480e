import Immediate.Eval.Operand
import Immediate.Value.Cast
/-! Comparison. Values are compared in the type their chains join at, so an integer equals the
same number of another width and a text equals the list of its 16-bit units. Values without a
joint type are never equal and have no order. Numbers, texts and entities are ordered; other
kinds know equality alone. Null equals null, and has no order. -/
namespace Immediate

namespace Value

/-- The order of two numbers: exact between integers, otherwise that of their 64-bit
floating-point forms. There is none if one is a NaN. -/
def numericOrder? (left right : Value) : Option Ordering :=
  match left, right with
  | .integer _ a, .integer _ b => some (compare a.toInt b.toInt)
  | left, right => do (← left.toBinary64?).order? (← right.toBinary64?)

/-- Whether two values are equal. -/
def equal (left right : Value) : Except EvalError Bool :=
  match Ty.join? left.ty right.ty with
  | none => .ok false
  | some t => do
    let left ← cast t left
    let right ← cast t right
    if t.kind.isNumeric then return numericOrder? left right = some .eq
    else return same left right

/-- The order of two values of ordered kinds; there is none if a NaN is involved. -/
def order (left right : Value) : Except EvalError (Option Ordering) :=
  match Ty.join? left.ty right.ty with
  | none => .error (.incompatible (.ty left.ty) right.ty)
  | some t => do
    let left ← cast t left
    let right ← cast t right
    match left, right with
    | .string a, .string b => return some (compare a b)
    | .entity a, .entity b => return some (compare a.bits.toNat b.bits.toNat)
    | left, right =>
      if t.kind.isNumeric then return numericOrder? left right
      else throw (.incompatible (.ordered t) t)

/-- Whether a comparison holds between two slots. -/
def compareSlots (op : CompareOp) (left right : Slot) : Except EvalError Bool :=
  match left, right with
  | some left, some right =>
    if op.isEquality then return (← equal left right) == (op = .eq)
    else return (← order left right).any op.holds
  | left, right =>
    if op.isEquality then return (left.isNone && right.isNone) == (op = .eq)
    else throw (.nullOperand (.compare op))

/-- Equality that never fails: what cannot be compared is not equal. -/
def slotsEqual (left right : Slot) : Bool :=
  match compareSlots .eq left right with
  | .ok held => held
  | .error _ => false

end Value

/-- The outcome of a comparison: what was found for each pair, in order. -/
structure Comparison where
  results : List Bool

namespace Comparison

/-- For how many pairs the comparison held. -/
def matched (c : Comparison) : Nat := c.results.count true

/-- Whether there was a pair and the comparison held for all. -/
def allHeld (c : Comparison) : Bool := !c.results.isEmpty && c.results.all id

/-- Compares two operands pair by pair. Single ones give one result or an error; a pair out of a
stream that cannot be compared is dropped and its error reported. -/
def ofOperands (op : CompareOp) (left right : Operand Slot) :
    Except EvalError (List EvalError × Comparison) := do
  let compared ← Operand.fanOutOne (fun _ (left, right) =>
    Operand.single <$> Value.compareSlots op left right) (left.zipWith Prod.mk right)
  match compared with
  | .single held => return ([], ⟨[held]⟩)
  | .many stream => return (stream.drain.1, ⟨stream.drain.2⟩)

end Comparison
end Immediate
