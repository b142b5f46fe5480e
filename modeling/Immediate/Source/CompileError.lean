import Immediate.Code.VariableId
/-! What can be wrong with source text. Reading stops at the first error, which carries the place
where it was noticed, as a number of UTF-8 bytes from the start. -/
namespace Immediate

/-- What was expected where something else stood. -/
inductive Expected where
  /-- After a child of a type. -/
  | commaOrAngle
  /-- After an index. -/
  | bracket
  /-- After the value of an entry. -/
  | brace
  /-- After an element of a list. -/
  | commaOrBrace
  deriving DecidableEq, Repr

/-- What is wrong. -/
inductive Fault where
  | unterminatedParen
  | expected (what : Expected)
  | expectedValue
  | unexpectedChar (c : Char)
  | unknownFunction (name : String) (arity : Nat)
  | unknownType (name : String)
  | wrongTypeArity (name : String) (wanted found : Nat)
  | invalidId (error : IdError)
  | invalidPathFunction (name : String)
  | multiplePoints
  | emptyNumeral
  | outOfRange (literal : String)
  | invalidSuffix (suffix : Char)
  | unterminatedString
  | invalidEscape (escape : String)
  | invalidChar
  deriving DecidableEq, Repr

/-- A fault and its place. -/
structure CompileError where
  fault : Fault
  position : Nat
  deriving DecidableEq, Repr

/-- The text of what was expected. -/
def Expected.text : Expected → String
  | .commaOrAngle => "',' or '>'"
  | .bracket => "']'"
  | .brace => "'\x7d'"
  | .commaOrBrace => "',' or '\x7d'"

/-- The text of a fault. -/
def Fault.message : Fault → String
  | .unterminatedParen => "unterminated parenthesis"
  | .expected what => "expected " ++ what.text
  | .expectedValue => "expected a value"
  | .unexpectedChar c => s!"unexpected character '{c}'"
  | .unknownFunction name arity => s!"unknown function {name} with {arity} argument(s)"
  | .unknownType name => s!"unknown type '{name}'"
  | .wrongTypeArity name wanted found =>
    s!"type '{name}' takes {wanted} child type(s), found {found}"
  | .invalidId error => error.message
  | .invalidPathFunction name => s!"'{name}' cannot wrap a path; only key and value can"
  | .multiplePoints => "multiple radix points in number"
  | .emptyNumeral => "number has no digits"
  | .outOfRange literal => s!"number out of range: {literal}"
  | .invalidSuffix suffix => s!"invalid number suffix '{suffix}'"
  | .unterminatedString => "unterminated string"
  | .invalidEscape escape => s!"invalid escape sequence '\\{escape}'"
  | .invalidChar => "invalid character literal"

/-- The text of an error. -/
def CompileError.message (e : CompileError) : String :=
  s!"{e.fault.message} at position {e.position}"

end Immediate
