import Immediate.Number.Reading
import Immediate.Source.Cursor
import Immediate.Value.Basic
/-! Numerals. After an optional sign comes the radix: `0x` for hexadecimal, `0b` before a binary
digit, a zero before another digit for octal, and decimal otherwise. Decimal and hexadecimal
numerals may have a point, which makes them doubles; two points are a range and no part of a
numeral. A letter after the digits selects the kind; hexadecimal digits leave only `L` for that.
Decimal integers must fit the signed range of their width, the others may use all its bits. -/
namespace Immediate

/-- What the letter after a numeral selects. -/
inductive Suffix where
  | integer (width : Width)
  | float
  deriving DecidableEq, Repr

namespace Numeral

/-- The radix of the digits that follow, and how many bytes tell it. -/
def radixAt : List Char → Nat × Nat
  | '0' :: 'x' :: _ | '0' :: 'X' :: _ => (16, 2)
  | '0' :: 'b' :: '0' :: _ | '0' :: 'b' :: '1' :: _
  | '0' :: 'B' :: '0' :: _ | '0' :: 'B' :: '1' :: _ => (2, 2)
  | '0' :: c :: _ => if c.isDigit then (8, 0) else (10, 0)
  | _ => (10, 0)

/-- What a letter after a numeral of a radix selects. -/
def suffix? (radix : Nat) (c : Char) : Option Suffix :=
  if c = 'l' ∨ c = 'L' then some (.integer .long)
  else if radix = 16 then none
  else if c = 'b' ∨ c = 'B' then some (.integer .byte)
  else if c = 's' ∨ c = 'S' then some (.integer .short)
  else if c = 'f' ∨ c = 'F' then some .float
  else none

/-- The number digits spell, computed digit by digit in 64-bit floating point. -/
def wholeFloat (radix : Nat) (digits : List Char) : Binary64 :=
  (digits.filterMap (digitValue? radix)).foldl
    (fun total (digit : Nat) => (total.mul (.ofInt radix)).add (.ofInt digit)) .zero

/-- The fraction digits spell, computed digit by digit in 64-bit floating point. -/
def fractionFloat (radix : Nat) (digits : List Char) : Binary64 :=
  ((digits.filterMap (digitValue? radix)).foldl
    (fun (total, scale) (digit : Nat) =>
      (total.add ((Binary64.ofInt digit).mul scale), scale.div (.ofInt radix)))
    (Binary64.zero, (Binary64.ofInt 1).div (.ofInt radix))).1

/-- The number with a point that digits before and after it spell. -/
def pointed (radix : Nat) (whole fraction : List Char) : Binary64 :=
  if radix = 10 then
    ⟨(Layout.binary64.ofDecimal false (digitsValue 10 (whole ++ fraction))
      (-fraction.length)).toUInt64⟩
  else (wholeFloat radix whole).add (fractionFloat radix fraction)

/-- Whether an integer of a radix may be written for a width. -/
def fits (radix : Nat) (width : Width) (negative : Bool) (magnitude : Nat) : Bool :=
  if radix = 10 then
    let half := Nat.pow 2 (width.bits - 1)
    if negative then magnitude ≤ half else magnitude < half
  else magnitude < Nat.pow 2 width.bits

/-- Gives a floating-point number its sign. -/
def withSign (negative : Bool) (x : Binary64) : Binary64 := if negative then x.negate else x

/-- Reads an optional sign; true for a minus. -/
def readSign : Parser Bool := do
  if ← Parser.eat ['-'] then return true
  discard (Parser.eat ['+'])
  return false

/-- Reads the mark of the radix. -/
def readRadix : Parser Nat := do
  let cursor ← get
  let (radix, count) := radixAt cursor.rest
  set (cursor.advanceBytes count)
  return radix

/-- Whether a point at the cursor belongs to a numeral of a radix. -/
def atPoint (radix : Nat) (cursor : Cursor) : Bool :=
  (radix = 10 || radix = 16) && cursor.current? = some '.' && cursor.next? ≠ some '.'

/-- Reads the digits after the point, if there is one. -/
def readFraction (radix : Nat) : Parser (Option (List Char)) := do
  let cursor ← get
  if !atPoint radix cursor then return none
  set (cursor.advance 1)
  let fraction ← Parser.takeWhile (isDigitIn radix)
  if atPoint radix (← get) then Parser.fail .multiplePoints
  return some fraction

/-- Reads the letter that selects a kind, if there is one. -/
def readSuffix (radix : Nat) : Parser (Option Suffix) := do
  let cursor ← get
  match cursor.current?.bind (suffix? radix) with
  | some suffix =>
    set (cursor.advance 1)
    return some suffix
  | none => return none

/-- Reads a numeral. -/
def read : Parser Value := do
  let start ← get
  let negative ← readSign
  let radix ← readRadix
  let whole ← Parser.takeWhile (isDigitIn radix)
  let fraction? ← readFraction radix
  if whole.isEmpty && (fraction?.getD []).isEmpty then Parser.fail .emptyNumeral
  let beforeSuffix ← get
  let suffix? ← readSuffix radix
  match fraction?, suffix? with
  | some fraction, none => return .double (withSign negative (pointed radix whole fraction))
  | some fraction, some .float =>
    return .float (withSign negative (pointed radix whole fraction)).narrow
  | some _, some (.integer _) =>
    Parser.failAt (.invalidSuffix (beforeSuffix.current?.getD '?')) beforeSuffix.offset
  | none, some .float => return .float (withSign negative (wholeFloat radix whole)).narrow
  | none, suffix? => do
    let width := match suffix? with
      | some (.integer width) => width
      | _ => .int
    let magnitude := digitsValue radix whole
    if !fits radix width negative magnitude then
      Parser.failAt (.outOfRange (String.ofList (← Parser.since start))) start.offset
    return .ofInt width (if negative then -magnitude else magnitude)

end Numeral
end Immediate
