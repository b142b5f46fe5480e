import Immediate.Code.Instruction
/-! Paths: a stored variable and the steps from it to the slots a command reads or changes. An
accessor is a step as written, with code for its index; a step is one slot it leads to. -/
namespace Immediate

/-- A written step. -/
inductive Accessor where
  | allContents
  | index (code : Code)
  | optionalIndex (code : Code)
  | range (first last : Code)
  | entryKey
  | entryValue

/-- One slot below a value. -/
inductive Step where
  | index (position : Nat)
  | mapKey (key : Value)
  | entryKey
  | entryValue

/-- The steps from a variable down to one slot. -/
abbrev Location := List Step

/-- A variable and written steps below it. -/
structure Path where
  base : VariableId
  accessors : List Accessor

namespace Accessor

/-- The text of a written step. -/
def text : Accessor → String
  | .allContents => "[]"
  | .index code => "[" ++ code.inline ++ "]"
  | .optionalIndex code => "[" ++ code.inline ++ "?]"
  | .range first last => "[" ++ first.inline ++ ".." ++ last.inline ++ "]"
  | .entryKey => ".key"
  | .entryValue => ".value"

/-- The instructions that read the step below the value on the stack. -/
def code : Accessor → Code
  | .allContents => [.allContents]
  | .index inner => inner ++ [.index]
  | .optionalIndex inner => inner ++ [.optionalIndex]
  | .range first last => first ++ last ++ [.rangeIndex]
  | .entryKey => [.call .key 1]
  | .entryValue => [.call .value 1]

end Accessor

namespace Step

/-- The text of a slot's step. -/
def text : Step → String
  | .index position => s!"[{position}]"
  | .mapKey key => "[" ++ key.text ++ "]"
  | .entryKey => ".key"
  | .entryValue => ".value"

end Step

namespace Location

/-- The text of a slot below a variable. -/
def text (base : VariableId) (location : Location) : String :=
  base.text ++ String.join (location.map Step.text)

end Location

namespace Path

/-- Whether the path names the variable itself. -/
def isVariable (p : Path) : Bool := p.accessors.isEmpty

/-- The text of a path. -/
def text (p : Path) : String := p.base.text ++ String.join (p.accessors.map Accessor.text)

/-- The instructions that read a path. -/
def code (p : Path) : Code := .variable p.base :: p.accessors.flatMap Accessor.code

end Path
end Immediate
