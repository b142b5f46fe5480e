import Immediate.Source.Expression
/-! Paths as written: a variable, which calls of `key` and `value` may be wrapped around, and
indices behind it. The wraps apply to the variable, the innermost first, before any index. -/
namespace Immediate.Path

/-- The step that a function wrapped around a variable stands for. -/
def wrap? (name : List Char) : Option Accessor :=
  if name = "key".toList then some .entryKey
  else if name = "value".toList then some .entryValue
  else none

/-- Reads a variable and what is wrapped around it, innermost first. -/
def readBase (o : CompileOptions) : Nat → Parser (VariableId × List Accessor)
  | 0 => Parser.fail .expectedValue
  | fuel + 1 => do
    Parser.skipBlanks
    let start := (← get).offset
    if !(← get).isAt isIdStart then Parser.fail .expectedValue
    let name ← Expression.readName
    if ← Parser.eat ['('] then
      match wrap? name with
      | none => Parser.failAt (.invalidPathFunction (String.ofList name)) start
      | some wrap => do
        let (base, wraps) ← readBase o fuel
        Parser.skipBlanks
        if ← Parser.eat [')'] then return (base, wraps ++ [wrap])
        else Parser.failAt .unterminatedParen start
    else return (← Expression.readVariable o name start, [])

/-- Reads a path. -/
def readHere (o : CompileOptions) (fuel : Nat) : Parser Path := do
  let (base, wraps) ← readBase o fuel
  let indices ← Expression.readIndices o fuel
  return ⟨base, wraps ++ indices⟩

/-- The path a text spells. -/
def parse (o : CompileOptions) (s : String) : Except CompileError Path :=
  (readHere o (Expression.fuelFor s)).readAll s

end Immediate.Path
