import Immediate.Eval.Call
import Immediate.Eval.Index
/-! The stack machine. Instructions run in order on a stack of operands; each takes its operands
off, combines them under the rule for fanning out, and puts one result on. Streams stay lazy, so
running code reports nothing yet: the reports come when the result is drained. -/
namespace Immediate

/-- The operands on the stack, the top one first. -/
abbrev Stack := List (Operand Slot)

namespace Value

/-- The map that a literal made of entries alone spells. Keys and values are cast to their joint
types, and of two entries with one key the later one gives the value. -/
def ofEntryLiteral (pairs : List (Slot × Slot)) : Except EvalError Value := do
  let keyTy ← jointTy (pairs.filterMap (·.1))
  let valueTy ← jointTy (pairs.filterMap (·.2))
  let pairs ← pairs.mapM fun (key, value) => do
    match ← castSlot keyTy key with
    | none => throw (.nullOperand .mapLiteralKey)
    | some key => return (key, ← castSlot valueTy value)
  return .map keyTy valueTy (insertAll [] pairs)

/-- The halves of a slot's entry, if it holds one. -/
def halves? : Slot → Option (Slot × Slot)
  | some (.entry _ _ key value) => some (key, value)
  | _ => none

/-- The value that a literal of elements spells: a map if there are elements and all are entries,
otherwise a list whose elements are cast to their joint type. -/
def ofLiteral (items : List Slot) : Except EvalError Value := do
  match items, items.mapM halves? with
  | _ :: _, some pairs => ofEntryLiteral pairs
  | items, _ =>
    match ← jointTy (items.filterMap id) with
    | none => return .list none items
    | some t => return .list (some t) (← castItems t items)

/-- A binary operator between two slots, neither of which may be empty. -/
def operateSlots (op : BinaryOp) : Slot → Slot → Except EvalError (Operand Slot)
  | some left, some right =>
    if op = .range then .many <$> range left right
    else do return .single (some (← operate op left right))
  | _, _ => .error (.nullOperand (.binary op))

/-- A unary operator on a slot, which may not be empty. -/
def operateSlot (op : UnaryOp) : Slot → Except EvalError (Operand Slot)
  | some v => do return .single (some (← operateUnary op v))
  | none => .error (.nullOperand (.unary op))

end Value

namespace Instruction

/-- What an instruction makes of one tuple of values, at the present moment. Values that are missing
count as null. -/
def apply (context : Context) (i : Instruction) (args : List Slot) :
    Except EvalError (Operand Slot) :=
  let arg (position : Nat) : Slot := (args[position]?).getD none
  match i with
  | .constant slot => .ok (.single slot)
  | .variable id => .single <$> context.load id
  | .unary op => Value.operateSlot op (arg 0)
  | .binary op => Value.operateSlots op (arg 0) (arg 1)
  | .cast ty => .single <$> Value.castSlot (some ty) (arg 0)
  | .list _ => do return .single (some (← Value.ofLiteral args))
  | .entry => .ok (.single (some (Value.ofHalves (arg 0) (arg 1))))
  | .call builtin _ => builtin.apply context.world.now args
  | .allContents => Value.allContents (arg 0)
  | .index => Value.indexed (arg 0) (arg 1)
  | .optionalIndex => Value.optionallyIndexed (arg 0) (arg 1)
  | .rangeIndex => Value.rangeIndexed (arg 0) (arg 1) (arg 2)

/-- The error of an instruction that finds too few operands. Those that take a single one say so
in their own words. -/
def shortage (i : Instruction) (held : Nat) : Imbalance :=
  match i with
  | .unary _ | .cast _ | .allContents => .empty i
  | _ => .tooFew i held

/-- What an instruction makes of the operands it takes. The function `all` strings its arguments
together; everything else fans out, and each tuple is a part of the run. -/
def combine (context : Context) (i : Instruction) (operands : List (Operand Slot)) :
    Except EvalError (Operand Slot) :=
  match i with
  | .call .all _ => .ok (.many (Operand.concat operands))
  | i => Operand.fanOut (fun n => i.apply (context.within n)) operands

/-- Runs one instruction. -/
def step (context : Context) (stack : Stack) (i : Instruction) : Except EvalError Stack :=
  if i.consumes ≤ stack.length then do
    let result ← i.combine context (stack.take i.consumes).reverse
    return result :: stack.drop i.consumes
  else .error (.invalidCode (i.shortage stack.length))

end Instruction

namespace Code

/-- Runs code on a stack. Its instructions are the parts of the run. -/
def runOn (context : Context) (stack : Stack) : Code → Except EvalError Stack
  | [] => .ok stack
  | i :: rest => do runOn (context.later 1) (← i.step (context.within 0) stack) rest

/-- Runs code from the empty stack to the one operand it leaves. -/
def execute (context : Context) (code : Code) : Except EvalError (Operand Slot) := do
  match ← runOn context [] code with
  | [result] => return result
  | [] => throw (.invalidCode .noResult)
  | stack => throw (.invalidCode (.leftOver stack.length))

/-- The code with a constant in its place where it consults nothing and gives one value. Code that
fails or gives a stream is kept, so its errors come up when it is run. -/
def fold (code : Code) : Code :=
  if code.length ≤ 1 ∨ code.any (·.asksContext) then code
  else
    match execute .empty code with
    | .ok (.single slot) => [.constant slot]
    | _ => code

end Code
end Immediate
