/-! Built-in functions. A call is resolved by name and number of arguments, so two functions may
share a name. -/
namespace Immediate

/-- A built-in function. -/
inductive Builtin where
  /-- All values of all arguments, as one stream. -/
  | all
  | key | value
  | entries | keys | values
  | size
  /-- A snapshot of a container. -/
  | iter
  | typeOf
  | abs | min | max
  /-- A position of three coordinates. -/
  | pos
  /-- The position of an entity. -/
  | entityPos
  /-- Where the evaluation happens. -/
  | here
  /-- The entities a selector matches. -/
  | entity
  /-- A number from zero to just below one. -/
  | random
  /-- An integer between two others, both included. -/
  | randomRange
  deriving DecidableEq, Repr

/-- How many arguments a function takes. -/
inductive Arity where
  | fixed (n : Nat)
  | variadic
  deriving DecidableEq, Repr

namespace Arity

/-- Whether a number of arguments will do. -/
def accepts : Arity → Nat → Bool
  | .fixed n, argc => n = argc
  | .variadic, _ => true

/-- The written form. -/
def text : Arity → String
  | .fixed n => toString n
  | .variadic => "*"

end Arity

namespace Builtin

/-- Every function. -/
def everything : List Builtin :=
  [.all, .key, .value, .entries, .keys, .values, .size, .iter, .typeOf, .abs, .min, .max, .pos,
   .entityPos, .here, .entity, .random, .randomRange]

/-- The name of a function. -/
def name : Builtin → String
  | .all => "all"
  | .key => "key"
  | .value => "value"
  | .entries => "entries"
  | .keys => "keys"
  | .values => "values"
  | .size => "size"
  | .iter => "iter"
  | .typeOf => "type"
  | .abs => "abs"
  | .min => "min"
  | .max => "max"
  | .pos | .entityPos => "pos"
  | .here => "here"
  | .entity => "entity"
  | .random | .randomRange => "random"

/-- How many arguments a function takes. -/
def arity : Builtin → Arity
  | .all => .variadic
  | .here | .random => .fixed 0
  | .key | .value | .entries | .keys | .values | .size | .iter | .typeOf | .abs | .entityPos
  | .entity => .fixed 1
  | .min | .max | .randomRange => .fixed 2
  | .pos => .fixed 3

/-- The function of a name that takes a number of arguments. -/
def find? (name : String) (argc : Nat) : Option Builtin :=
  everything.find? fun b => b.name = name && b.arity.accepts argc

/-- Whether some function has a name. -/
def isName (name : String) : Bool := everything.any (·.name = name)

/-- Whether the result hangs on the host, so that it cannot be computed ahead. -/
def asksHost : Builtin → Bool
  | .entityPos | .here | .entity | .random | .randomRange => true
  | _ => false

/-- The name and the number of arguments. -/
def text (b : Builtin) : String := s!"{b.name}/{b.arity.text}"

end Builtin
end Immediate
