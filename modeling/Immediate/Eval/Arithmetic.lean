import Immediate.Eval.Operand
import Immediate.Value.Cast
/-! Operators on values. Both operands are first cast to the type that their chains lead to and
that supports the operator. Integers and 32-bit floating-point numbers are computed in 64 bits; the
former are wrapped to their width and the latter rounded back. Integers shift by their right operand
modulo the width, and cannot be divided by zero. Text and lists are joined end to end, and of two
maps the right one wins. -/
namespace Immediate

/-- The integer width of a type; other types than the integers count as the widest. -/
def Ty.width : Ty → Width
  | .scalar (.integer width) => width
  | _ => .long

namespace Value

/-- The error of operands that an operator does not take. -/
def unsupported (op : BinaryOp) (left right : Value) : EvalError :=
  .incompatible (.beside left.ty op) right.ty

/-- The integer of a width that a 64-bit one wraps to. -/
def wrapped (width : Width) (n : BitVec 64) : Value := .integer width (n.setWidth width.bits)

/-- An operator on integers of one width, computed in 64 bits. A shift goes by the lowest bits of its
right operand, as many as count up to the width. -/
def integerOperation (width : Width) (op : BinaryOp) (a b : BitVec 64) : Except EvalError Value :=
  let shift := (b.setWidth 32 &&& BitVec.ofNat 32 (width.bits - 1)).toNat
  match op with
  | .add => .ok (wrapped width (a + b))
  | .sub => .ok (wrapped width (a - b))
  | .mul => .ok (wrapped width (a * b))
  | .div => if b = 0 then .error .divisionByZero else .ok (wrapped width (a.sdiv b))
  | .rem => if b = 0 then .error .divisionByZero else .ok (wrapped width (a.srem b))
  | .shl => .ok (wrapped width (a <<< shift))
  | .shr => .ok (wrapped width (a.sshiftRight shift))
  | .bitAnd => .ok (wrapped width (a &&& b))
  | .bitXor => .ok (wrapped width (a ^^^ b))
  | .bitOr => .ok (wrapped width (a ||| b))
  | .range => .error (unsupported op (wrapped width a) (wrapped width b))

/-- An operator on floating-point numbers, for those that have one. -/
def floatOperation? (op : BinaryOp) (a b : Binary64) : Option Binary64 :=
  match op with
  | .add => some (a.add b)
  | .sub => some (a.sub b)
  | .mul => some (a.mul b)
  | .div => some (a.div b)
  | .rem => some (a.rem b)
  | _ => none

/-- An operator on values of one type, for those that have one. -/
def operateJoined (op : BinaryOp) (left right : Value) : Except EvalError Value :=
  match left, right with
  | .integer width a, .integer _ b => integerOperation width op (a.signExtend 64) (b.signExtend 64)
  | .float a, .float b =>
    match floatOperation? op a.widen b.widen with
    | some x => .ok (.float x.narrow)
    | none => .error (unsupported op left right)
  | .double a, .double b =>
    match floatOperation? op a b with
    | some x => .ok (.double x)
    | none => .error (unsupported op left right)
  | .string s, .string t =>
    if op = .add then .ok (.string (s ++ t)) else .error (unsupported op left right)
  | .list element items, .list _ more =>
    if op = .add then .ok (.list element (items ++ more)) else .error (unsupported op left right)
  | .map keyTy valueTy pairs, .map _ _ more =>
    if op = .add then .ok (.map keyTy valueTy (insertAll pairs more))
    else .error (unsupported op left right)
  | .position p, .position q =>
    match op with
    | .add => .ok (.position (p.offset q))
    | .sub => .ok (.position (p.offset q.negate))
    | _ => .error (unsupported op left right)
  | left, right => .error (unsupported op left right)

/-- A binary operator other than the range. -/
def operate (op : BinaryOp) (left right : Value) : Except EvalError Value :=
  match Ty.operable? left.ty right.ty [op.capability] with
  | none => .error (.incompatible (.ty left.ty) right.ty)
  | some t => do
    let left ← cast t left
    let right ← cast t right
    operateJoined op left right

/-- Consecutive integers of a width. -/
def integersFrom (width : Width) (first : Int) : Nat → Stream Slot
  | 0 => .done
  | count + 1 => .yield (some (ofInt width first)) fun _ => integersFrom width (first + 1) count

/-- The integers from one value to another, both included, in the width their types join at. -/
def range (first last : Value) : Except EvalError (Stream Slot) :=
  match Ty.operable? first.ty last.ty [.range], first.toInteger?, last.toInteger? with
  | some t, some low, some high => .ok (integersFrom t.width low (high - low + 1).toNat)
  | _, _, _ => .error (unsupported .range first last)

/-- A unary operator. -/
def operateUnary (op : UnaryOp) (v : Value) : Except EvalError Value :=
  match v.ty.chain.find? (·.supports [op.capability]) with
  | none => .error (.incompatible (.operand op) v.ty)
  | some t => do
    match ← cast t v, op with
    | .integer width n, .negate => return .integer width (-n)
    | .float x, .negate => return .float x.negate
    | .double x, .negate => return .double x.negate
    | .position p, .negate => return .position p.negate
    | other, op => .error (.incompatible (.operand op) other.ty)

end Value
end Immediate
