import Immediate.Code.Builtin
import Immediate.Code.Operator
import Immediate.Code.VariableId
import Immediate.Value.Text
/-! Code: instructions for a stack machine, in postfix order. Each takes a known number of operands
off the stack and puts one result on it. -/
namespace Immediate

/-- An instruction. -/
inductive Instruction where
  /-- Pushes a constant, or null. -/
  | constant (slot : Slot)
  /-- Pushes what a variable holds. -/
  | variable (id : VariableId)
  | unary (op : UnaryOp)
  | binary (op : BinaryOp)
  | cast (ty : Ty)
  /-- Makes a list of a number of operands; of entries alone it makes a map. -/
  | list (length : Nat)
  | entry
  | call (builtin : Builtin) (argc : Nat)
  | allContents
  | index
  /-- Like `index`, but what is missing yields nothing. -/
  | optionalIndex
  | rangeIndex

/-- A sequence of instructions. -/
abbrev Code := List Instruction

namespace Instruction

/-- How many operands an instruction takes. -/
def consumes : Instruction → Nat
  | .constant _ | .variable _ => 0
  | .unary _ | .cast _ | .allContents => 1
  | .binary _ | .entry | .index | .optionalIndex => 2
  | .rangeIndex => 3
  | .list length => length
  | .call _ argc => argc

/-- How many results an instruction leaves. -/
def produces (_ : Instruction) : Nat := 1

/-- Whether the result hangs on variables or on the host. -/
def asksContext : Instruction → Bool
  | .variable _ => true
  | .call builtin _ => builtin.asksHost
  | _ => false

/-- The text of an instruction. -/
def text : Instruction → String
  | .constant slot => "LOAD_CONSTANT " ++ Value.slotText slot
  | .variable id => "LOAD_VARIABLE " ++ id.text
  | .unary op => "UNARY " ++ op.symbol
  | .binary op => "BINARY " ++ op.symbol
  | .cast ty => "CAST " ++ ty.text
  | .list length => s!"BUILD_LIST {length}"
  | .entry => "BUILD_ENTRY"
  | .call builtin argc => s!"CALL {builtin.name} {argc}"
  | .allContents => "GET_ALL_CONTENTS"
  | .index => "GET_INDEXED_CONTENTS"
  | .optionalIndex => "GET_OPTIONAL_INDEXED_CONTENTS"
  | .rangeIndex => "GET_RANGE_INDEXED_CONTENTS"

end Instruction

namespace Code

/-- How many operands code leaves on a stack that held a number of them, unless an instruction
asks for more than there are. -/
def depthFrom : Nat → Code → Option Nat
  | depth, [] => some depth
  | depth, i :: rest =>
    if i.consumes ≤ depth then depthFrom (depth - i.consumes + i.produces) rest else none

/-- How many operands code leaves on an empty stack. -/
def depth? (code : Code) : Option Nat := depthFrom 0 code

/-- The code with a line for each instruction. -/
def listing (code : Code) : String := "\n".intercalate (code.map (·.text))

/-- The code on one line. -/
def inline (code : Code) : String := "; ".intercalate (code.map (·.text))

end Code
end Immediate
