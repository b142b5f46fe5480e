import Immediate.Code.Path
import Immediate.Source.Numeral
import Immediate.Source.Quoted
import Immediate.Source.TypeName
/-! Expressions, read straight into code.

    term     := operand (operator operand)*
    operand  := value index*
    value    := '-' value | '(' type ')' value | '(' term ')' | literal
              | braces | name '(' arguments ')' | variable
    index    := '[' (term | term '..' term | term '?')? ']'

A parenthesised name is a cast when it is a type and the start of a value follows; otherwise the
parentheses hold a term. What has the shape of a cast but names no type is an error of the type.
A minus binds tighter than an index. -/
namespace Immediate

/-- How expressions are compiled. -/
structure CompileOptions where
  /-- The namespace of variables written without one. -/
  space : String := "global"
  /-- Whether constant code is computed ahead. -/
  fold : Bool := true
  registry : Registry := .standard

namespace Code

/-- The code of operands with operators between them, behind code that is already written.
Operators wait until one that binds no tighter follows, so tighter ones are applied first and
equal ones from left to right. -/
def weave (written : Code) (waiting : List BinaryOp) : List (BinaryOp × Code) → Code
  | [] => written ++ waiting.map .binary
  | (op, operand) :: rest =>
    let ready := waiting.takeWhile (·.precedence ≤ op.precedence)
    let held := waiting.dropWhile (·.precedence ≤ op.precedence)
    weave (written ++ ready.map .binary ++ operand) (op :: held) rest

/-- The code of operands with operators between them. -/
def ofChain (first : Code) (rest : List (BinaryOp × Code)) : Code := weave first [] rest

end Code

namespace Expression

/-- Whether a character starts the digits of a numeral after a sign. -/
def startsDigits (c : Char) : Bool := c.isDigit || c = '.'

/-- Whether a character starts a value, which makes a type in parentheses before it a cast. -/
def startsValue (c : Char) : Bool :=
  isIdStart c || c.isDigit || c = '(' || c = '\x7b' || c = '"' || c = '\'' || c = '.'

/-- The operator at the cursor; a range is none where it would end the term. -/
def operatorAt? (stopAtRange : Bool) (cursor : Cursor) : Option BinaryOp :=
  (BinaryOp.all.find? fun op => op.symbol.toList.isPrefixOf cursor.rest).filter fun op =>
    !(stopAtRange && op = .range)

/-- Whether the text after a parenthesis has the shape of a cast: a name and an angle bracket that
starts no operator, or a name, a closing parenthesis and the start of a value. -/
def readShape : Parser Bool := do
  Parser.skipBlanks
  let name ← Parser.takeWhile TypeName.isNameChar
  Parser.skipBlanks
  if name.isEmpty then return false
  else if ← Parser.eat ['<'] then return !(← get).isAt fun c => c = '<' || c = '='
  else if ← Parser.eat [')'] then return (← Parser.ahead Cursor.skipBlanks).isAt startsValue
  else return false

/-- Reads a type, a closing parenthesis and the blanks before a value. Nothing is read if something
else stands there, unless it has the shape of a cast. -/
def readCast? (registry : Registry) : Parser (Option Ty) :=
  Parser.recover (do
    let t ← TypeName.readHere registry
    Parser.skipBlanks
    if ← Parser.eat [')'] then
      Parser.skipBlanks
      return if (← get).isAt startsValue then some t else none
    else return none)
  fun e => do if ← readShape then Parser.failAt e.fault e.position else return none

/-- The type of a cast after a parenthesis and the place of the value behind it; nothing if the
parenthesis holds a term. The cursor stays where it is. -/
def findCast (registry : Registry) : Parser (Option (Ty × Cursor)) := do
  let (found, after) ← Parser.probe (readCast? registry)
  return found.map (·, after)

/-- The characters of a name: those that may stand in one, up to two points in a row. -/
def nameChars : List Char → List Char
  | '.' :: '.' :: _ => []
  | c :: rest => if isIdChar c then c :: nameChars rest else []
  | [] => []

/-- Reads a name. -/
def readName : Parser (List Char) := do
  let cursor ← get
  let name := nameChars cursor.rest
  set (cursor.advance name.length)
  return name

/-- Whether a colon and a second name follow. -/
def isQualified (cursor : Cursor) : Bool :=
  cursor.current? = some ':' && cursor.next?.any isIdStart

/-- Reads the rest of a variable whose first name began at `start`. -/
def readVariable (o : CompileOptions) (name : List Char) (start : Nat) : Parser VariableId := do
  let cursor ← get
  let id ← if isQualified cursor then do
      set (cursor.advance 1)
      let path ← readName
      pure (VariableId.ofNames name path)
    else pure (VariableId.ofNames o.space.toList name)
  match id with
  | .ok id => return id
  | .error e => Parser.failAt (.invalidId e) start

mutual

/-- Reads a term. -/
def readTerm (o : CompileOptions) (stopAtRange : Bool) : Nat → Parser Code
  | 0 => Parser.fail .expectedValue
  | fuel + 1 => do
    let first ← readOperand o fuel
    let rest ← readOperations o stopAtRange fuel
    return .ofChain first rest

/-- Reads operators, each with the operand after it. -/
def readOperations (o : CompileOptions) (stopAtRange : Bool) :
    Nat → Parser (List (BinaryOp × Code))
  | 0 => Parser.fail .expectedValue
  | fuel + 1 => do
    Parser.skipBlanks
    let cursor ← get
    match operatorAt? stopAtRange cursor with
    | none => return []
    | some op =>
      set (cursor.advanceBytes (Text.byteCount op.symbol.toList))
      let operand ← readOperand o fuel
      let rest ← readOperations o stopAtRange fuel
      return (op, operand) :: rest

/-- Reads an operand: a value and the indices behind it. -/
def readOperand (o : CompileOptions) : Nat → Parser Code
  | 0 => Parser.fail .expectedValue
  | fuel + 1 => do
    let value ← readValue o fuel
    let indices ← readIndices o fuel
    return value ++ indices.flatMap Accessor.code

/-- Reads indices as long as there are any. -/
def readIndices (o : CompileOptions) : Nat → Parser (List Accessor)
  | 0 => Parser.fail .expectedValue
  | fuel + 1 => do
    match ← readIndex? o fuel with
    | none => return []
    | some index => return index :: (← readIndices o fuel)

/-- Reads one index, if there is one. -/
def readIndex? (o : CompileOptions) : Nat → Parser (Option Accessor)
  | 0 => Parser.fail .expectedValue
  | fuel + 1 => do
    Parser.skipBlanks
    if !(← Parser.eat ['[']) then return none
    Parser.skipBlanks
    if ← Parser.eat [']'] then return some .allContents
    let first ← readTerm o true fuel
    Parser.skipBlanks
    let index ← do
      if ← Parser.eat ['.', '.'] then
        let last ← readTerm o true fuel
        pure (Accessor.range first last)
      else if ← Parser.eat ['?'] then pure (.optionalIndex first)
      else pure (.index first)
    Parser.expect ']' .bracket
    return some index

/-- Reads a value. -/
def readValue (o : CompileOptions) : Nat → Parser Code
  | 0 => Parser.fail .expectedValue
  | fuel + 1 => do
    Parser.skipBlanks
    let cursor ← get
    match cursor.current? with
    | none => Parser.fail .expectedValue
    | some c =>
      if (c = '-' || c = '+') && cursor.next?.any startsDigits then
        return [.constant (some (← Numeral.read))]
      else if c = '-' then do
        set (cursor.advance 1)
        let value ← readValue o fuel
        return value ++ [.unary .negate]
      else if c = '(' then readParen o fuel
      else if c = '\x7b' then readBraces o fuel
      else if c = '"' then return [.constant (some (← Quoted.readText))]
      else if c = '\'' then return [.constant (some (← Quoted.readChar))]
      else if c.isDigit || (c = '.' && cursor.next?.any Char.isDigit) then
        return [.constant (some (← Numeral.read))]
      else if isIdStart c then readNamed o fuel
      else Parser.fail .expectedValue

/-- Reads a parenthesis: a cast and its value, or a term. -/
def readParen (o : CompileOptions) : Nat → Parser Code
  | 0 => Parser.fail .expectedValue
  | fuel + 1 => do
    let opening := (← get).offset
    modify (·.advance 1)
    match ← findCast o.registry with
    | some (t, after) => do
      set after
      let value ← readValue o fuel
      return value ++ [.cast t]
    | none => do
      let term ← readTerm o false fuel
      Parser.skipBlanks
      if ← Parser.eat [')'] then return term
      else Parser.failAt .unterminatedParen opening

/-- Reads braces: an entry, or a list of any length. -/
def readBraces (o : CompileOptions) : Nat → Parser Code
  | 0 => Parser.fail .expectedValue
  | fuel + 1 => do
    modify (·.advance 1)
    Parser.skipBlanks
    if ← Parser.eat ['\x7d'] then return [.list 0]
    let first ← readTerm o false fuel
    Parser.skipBlanks
    if ← Parser.eat [':'] then do
      let value ← readTerm o false fuel
      Parser.expect '\x7d' .brace
      return first ++ value ++ [.entry]
    else do
      let rest ← readElements o fuel
      Parser.expect '\x7d' .commaOrBrace
      return first ++ rest.flatten ++ [.list (rest.length + 1)]

/-- Reads further elements, each behind a comma. -/
def readElements (o : CompileOptions) : Nat → Parser (List Code)
  | 0 => Parser.fail .expectedValue
  | fuel + 1 => do
    if ← Parser.eat [','] then do
      let element ← readTerm o false fuel
      Parser.skipBlanks
      return element :: (← readElements o fuel)
    else return []

/-- Reads what starts with a name: a call, null or a variable. -/
def readNamed (o : CompileOptions) : Nat → Parser Code
  | 0 => Parser.fail .expectedValue
  | fuel + 1 => do
    let start := (← get).offset
    let name ← readName
    let cursor ← get
    if cursor.current? = some '(' then do
      set (cursor.advance 1)
      Parser.skipBlanks
      let args ←
        if ← Parser.eat [')'] then pure []
        else readArguments o cursor.offset fuel
      match Builtin.find? (String.ofList name) args.length with
      | some builtin => return args.flatten ++ [.call builtin args.length]
      | none => Parser.failAt (.unknownFunction (String.ofList name) args.length) start
    else if !isQualified cursor && name = "null".toList then return [.constant none]
    else return [.variable (← readVariable o name start)]

/-- Reads arguments up to the closing parenthesis; `opening` is where the opening one stands. -/
def readArguments (o : CompileOptions) (opening : Nat) : Nat → Parser (List Code)
  | 0 => Parser.fail .expectedValue
  | fuel + 1 => do
    let arg ← readTerm o false fuel
    Parser.skipBlanks
    if ← Parser.eat [','] then return arg :: (← readArguments o opening fuel)
    else if ← Parser.eat [')'] then return [arg]
    else Parser.failAt .unterminatedParen opening

end

/-- Enough fuel to read a text: between two characters that are taken, at most seven readers call
each other. -/
def fuelFor (s : String) : Nat := 8 * (s.length + 1)

/-- The code a text spells. -/
def parse (o : CompileOptions) (s : String) : Except CompileError Code :=
  (readTerm o false (fuelFor s)).readAll s

end Expression
end Immediate
