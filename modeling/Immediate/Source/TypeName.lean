import Immediate.Source.Cursor
import Immediate.Ty.Registry
/-! Types as casts write them: a registered name and, in angle brackets, its children, where a
question mark leaves one unset. Without brackets all children are unset; with them there must be
as many as the kind has. -/
namespace Immediate.TypeName

/-- Whether a character may stand in the name of a type. -/
def isNameChar (c : Char) : Bool := c.isAlphanum || c = '_'

mutual

/-- Reads a type. The fuel bounds how many types and children are read. -/
def read (registry : Registry) : Nat → Parser Ty
  | 0 => Parser.fail .expectedValue
  | fuel + 1 => do
    Parser.skipBlanks
    let start := (← get).offset
    let name := String.ofList (← Parser.takeWhile isNameChar)
    match registry.kind? name with
    | none => Parser.failAt (.unknownType name) start
    | some kind =>
      match (← Parser.ahead Cursor.skipBlanks).eat? ['<'] with
      | none => return .ofKind kind
      | some inside =>
        set inside
        let children ← readChildren registry fuel
        match Ty.ofChildren? kind children with
        | some t => return t
        | none => Parser.failAt (.wrongTypeArity name kind.childCount children.length) start

/-- Reads children up to the closing bracket. -/
def readChildren (registry : Registry) : Nat → Parser (List (Option Ty))
  | 0 => Parser.fail .expectedValue
  | fuel + 1 => do
    Parser.skipBlanks
    let child ←
      if ← Parser.eat ['?'] then pure none
      else some <$> read registry fuel
    Parser.skipBlanks
    if ← Parser.eat [','] then return child :: (← readChildren registry fuel)
    else if ← Parser.eat ['>'] then return [child]
    else Parser.fail (.expected .commaOrAngle)

end

/-- Reads a type at the cursor. Each type and each child but the last takes a character, so twice
their number is enough fuel. -/
def readHere (registry : Registry) : Parser Ty := do
  read registry (2 * (← get).rest.length + 2)

/-- The type a text spells. -/
def parse (registry : Registry) (s : String) : Except CompileError Ty :=
  (readHere registry).readAll s

end Immediate.TypeName
