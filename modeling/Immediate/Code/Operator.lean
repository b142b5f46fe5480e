import Immediate.Kind
/-! Operators: their symbols, how tightly the binary ones bind, and what they ask of the type of
their operands. -/
namespace Immediate

/-- The operators between two operands. -/
inductive BinaryOp where
  | mul | div | rem | add | sub | shl | shr | bitAnd | bitXor | bitOr | range
  deriving DecidableEq, Repr

/-- The operators before one operand. -/
inductive UnaryOp where
  | negate
  deriving DecidableEq, Repr

/-- The operators of comparisons. -/
inductive CompareOp where
  | eq | ne | lt | le | gt | ge
  deriving DecidableEq, Repr

namespace BinaryOp

/-- Every operator, those with longer symbols first, so that a reader that takes the first match
takes the longest. -/
def all : List BinaryOp :=
  [.shl, .shr, .range, .mul, .div, .rem, .add, .sub, .bitAnd, .bitXor, .bitOr]

/-- The symbol of an operator. -/
def symbol : BinaryOp → String
  | .mul => "*"
  | .div => "/"
  | .rem => "%"
  | .add => "+"
  | .sub => "-"
  | .shl => "<<"
  | .shr => ">>"
  | .bitAnd => "&"
  | .bitXor => "^"
  | .bitOr => "|"
  | .range => ".."

/-- How loosely an operator binds: an operator of a smaller number is applied first, and those
of one number from left to right. -/
def precedence : BinaryOp → Nat
  | .mul | .div | .rem => 1
  | .add | .sub => 2
  | .shl | .shr => 3
  | .bitAnd => 4
  | .bitXor => 5
  | .bitOr => 6
  | .range => 7

/-- What the operand type must support. -/
def capability : BinaryOp → Capability
  | .mul => .mul
  | .div => .div
  | .rem => .rem
  | .add => .add
  | .sub => .sub
  | .shl | .shr => .shift
  | .bitAnd | .bitXor | .bitOr => .bitwise
  | .range => .range

/-- The operator of a symbol. -/
def ofSymbol? (s : String) : Option BinaryOp := all.find? (·.symbol = s)

end BinaryOp

namespace UnaryOp

/-- The symbol of an operator. -/
def symbol : UnaryOp → String
  | .negate => "-"

/-- What the operand type must support. -/
def capability : UnaryOp → Capability
  | .negate => .negate

end UnaryOp

namespace CompareOp

/-- Every operator. -/
def all : List CompareOp := [.eq, .ne, .lt, .le, .gt, .ge]

/-- The symbol of an operator. -/
def symbol : CompareOp → String
  | .eq => "=="
  | .ne => "!="
  | .lt => "<"
  | .le => "<="
  | .gt => ">"
  | .ge => ">="

/-- The operator of a symbol. -/
def ofSymbol? (s : String) : Option CompareOp := all.find? (·.symbol = s)

/-- Whether the operator holds for operands in an order. -/
def holds : CompareOp → Ordering → Bool
  | .eq, o => o = .eq
  | .ne, o => o ≠ .eq
  | .lt, o => o = .lt
  | .le, o => o ≠ .gt
  | .gt, o => o = .gt
  | .ge, o => o ≠ .lt

/-- Whether the operator asks for equality alone, not for an order. -/
def isEquality : CompareOp → Bool
  | .eq | .ne => true
  | _ => false

end CompareOp
end Immediate
