import Immediate.Source.Cursor
import Immediate.Number.Reading
import Immediate.Value.Basic
/-! Quoted literals. A text stands in double quotes and is made of 16-bit units, some of which may
be written as escapes; one unit in single quotes is a short. -/
namespace Immediate.Quoted

/-- The unit a letter after a backslash stands for. -/
def escaped? (c : Char) : Option UInt16 :=
  if c = 't' then some 0x09
  else if c = 'b' then some 0x08
  else if c = 'n' then some 0x0A
  else if c = 'r' then some 0x0D
  else if c = 'f' then some 0x0C
  else if c = '\\' ∨ c = '"' ∨ c = '\'' then some c.toNat.toUInt16
  else none

/-- The characters that make up exactly the next bytes, if a character ends there. -/
def nextBytes? : List Char → Nat → Option (List Char)
  | _, 0 => some []
  | [], _ + 1 => none
  | c :: rest, count =>
    if c.utf8Size ≤ count then (nextBytes? rest (count - c.utf8Size)).map (c :: ·) else none

/-- Reads the four hexadecimal digits of an escaped unit; `start` is where the escape began. -/
def readHexUnit (start : Nat) : Parser UInt16 := do
  let cursor ← get
  let digits := (nextBytes? cursor.rest 4).getD []
  if digits.length = 4 ∧ digits.all (isDigitIn 16) then
    set (cursor.advanceBytes 4)
    return (digitsValue 16 digits).toUInt16
  else Parser.failAt (.invalidEscape (String.ofList ('u' :: digits))) start

/-- Reads a backslash and what it escapes. -/
def readEscape : Parser UInt16 := do
  let start := (← get).offset
  modify (·.advance 1)
  let cursor ← get
  match cursor.current? with
  | none => Parser.failAt (.invalidEscape "") start
  | some c =>
    set (cursor.advance 1)
    if c = 'u' then readHexUnit start
    else match escaped? c with
      | some u => return u
      | none => Parser.failAt (.invalidEscape (String.ofList [c])) start

/-- Reads units up to the closing quote; `start` is where the opening one stands. The fuel bounds
the number of units written. -/
def readUnits (start : Nat) : Nat → Parser (List UInt16)
  | 0 => Parser.failAt .unterminatedString start
  | fuel + 1 => do
    let cursor ← get
    match cursor.current? with
    | none => Parser.failAt .unterminatedString start
    | some c =>
      if c = '"' then
        set (cursor.advance 1)
        return []
      else if c = '\\' then
        let u ← readEscape
        return u :: (← readUnits start fuel)
      else
        set (cursor.advance 1)
        return Text.charUnits c ++ (← readUnits start fuel)

/-- Reads a text in double quotes. Its units must pair up to characters. -/
def readText : Parser Value := do
  let cursor ← get
  set (cursor.advance 1)
  let units ← readUnits cursor.offset cursor.rest.length
  match Text.ofUnits? units with
  | some s => return .string s
  | none => Parser.failAt (.invalidEscape "u") cursor.offset

/-- Reads the unit between single quotes. -/
def readUnit (start : Nat) : Parser UInt16 := do
  let cursor ← get
  match cursor.current? with
  | none => Parser.failAt .invalidChar start
  | some c =>
    if c = '\\' then readEscape
    else match Text.charUnits c with
      | [u] =>
        if c = '\'' then Parser.failAt .invalidChar start
        set (cursor.advance 1)
        return u
      | _ => Parser.failAt .invalidChar start

/-- Reads a unit in single quotes, as a short. -/
def readChar : Parser Value := do
  let cursor ← get
  set (cursor.advance 1)
  let u ← readUnit cursor.offset
  if ← Parser.eat ['\''] then return .integer .short u.toBitVec
  else Parser.failAt .invalidChar cursor.offset

end Immediate.Quoted
