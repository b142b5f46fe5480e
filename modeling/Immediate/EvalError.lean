import Immediate.Code.Path
/-! What can go wrong with values: casts without a meaning, missing operands, variables, elements
and keys, refusals of the host, and code that does not balance its stack. -/
namespace Immediate

/-- What a value was wanted for when its type would not do. -/
inductive Wanted where
  | ty (t : Ty)
  /-- As the other operand of an operator, beside one of a type. -/
  | beside (t : Ty) (op : BinaryOp)
  | operand (op : UnaryOp)
  /-- As something that has an order. -/
  | ordered (t : Ty)

/-- What was applied to nothing. -/
inductive Application where
  | unary (op : UnaryOp)
  | binary (op : BinaryOp)
  | compare (op : CompareOp)
  | call (builtin : Builtin)
  | allContents
  | index
  | rangeIndex
  | pathStep
  | step (s : Step)
  | mapLiteralKey

/-- Why the host did not answer. -/
inductive HostFailure where
  | unknownSelector (selector : String)
  | unknownPosition (e : EntityId)
  | noRandomness
  /-- The source of randomness failed. -/
  | randomnessUnavailable (reason : String)
  | emptyRange (low high : Int)

/-- How code misuses the stack. -/
inductive Imbalance where
  | tooFew (i : Instruction) (held : Nat)
  | empty (i : Instruction)
  | leftOver (operands : Nat)
  | noResult
  | tupleToAll

/-- An error of evaluation. -/
inductive EvalError where
  | incompatible (wanted : Wanted) (found : Ty)
  | nullOperand (application : Application)
  | divisionByZero
  | notFound (id : VariableId)
  | alreadyExists (id : VariableId)
  | notIndexable (kind : Kind)
  | notEntry (kind : Kind)
  | outOfBounds (index : Int) (length : Nat)
  | keyNotFound (key : Value)
  | manyToSingle
  | removeFromEntry
  | host (failure : HostFailure)
  | invalidCode (imbalance : Imbalance)

namespace EvalError

/-- A host does not know a selector. -/
abbrev unknownSelector (selector : String) : EvalError := .host (.unknownSelector selector)

/-- A host does not know where an entity is. -/
abbrev unknownPosition (e : EntityId) : EvalError := .host (.unknownPosition e)

/-- A host has no source of randomness. -/
abbrev noRandomness : EvalError := .host .noRandomness

end EvalError

/-- The text of what was wanted. -/
def Wanted.text : Wanted → String
  | .ty t => t.text
  | .beside t op => t.text ++ " for " ++ op.symbol
  | .operand op => "operand of " ++ op.symbol
  | .ordered t => "ordered " ++ t.text

/-- The text of what was applied. -/
def Application.text : Application → String
  | .unary op => op.symbol
  | .binary op => op.symbol
  | .compare op => op.symbol
  | .call builtin => builtin.name
  | .allContents => "[]"
  | .index => "[...]"
  | .rangeIndex => "[..]"
  | .pathStep => "path step"
  | .step s => s.text
  | .mapLiteralKey => "map literal key"

/-- The text of a refusal. -/
def HostFailure.message : HostFailure → String
  | .unknownSelector selector => "cannot resolve entity selector " ++ selector
  | .unknownPosition e => "no position known for entity " ++ e.text
  | .noRandomness => "no source of randomness"
  | .randomnessUnavailable reason => "system randomness unavailable: " ++ reason
  | .emptyRange low high => s!"empty random range {low}..{high}"

/-- The text of a misuse. -/
def Imbalance.message : Imbalance → String
  | .tooFew i held => s!"{i.text} pops {i.consumes} operands but the stack holds {held}"
  | .empty i => s!"{i.text} pops 1 operand but the stack is empty"
  | .leftOver operands => s!"code left {operands} operands on the stack"
  | .noResult => "code produced no result"
  | .tupleToAll => "all(...) concatenates operands, not tuples"

/-- The text of an error. -/
def EvalError.message : EvalError → String
  | .incompatible wanted found =>
    "incompatible type: cannot convert " ++ found.text ++ " to " ++ wanted.text
  | .nullOperand application => "cannot apply " ++ application.text ++ " to null"
  | .divisionByZero => "division by zero"
  | .notFound id => "variable not found: " ++ id.text
  | .alreadyExists id => "variable already exists: " ++ id.text
  | .notIndexable kind => kind.name ++ " is not indexable"
  | .notEntry kind => kind.name ++ " is not a map entry"
  | .outOfBounds index length => s!"index {index} out of bounds for length {length}"
  | .keyNotFound key => "key not found: " ++ key.text
  | .manyToSingle => "cannot assign multiple values to a single variable"
  | .removeFromEntry => "cannot remove the key or value of a map entry"
  | .host failure => failure.message
  | .invalidCode imbalance => "invalid code: " ++ imbalance.message

end Immediate
