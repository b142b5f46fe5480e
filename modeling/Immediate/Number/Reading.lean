import Immediate.Number.Arithmetic
/-! Numbers read from text. An integer is a sign at most and digits; a floating-point number may
have a point and an exponent besides, or be one of the words for infinity and NaN. -/
namespace Immediate

/-- The value of a digit in a radix up to sixteen. -/
def digitValue? (radix : Nat) (c : Char) : Option Nat :=
  let value? :=
    if '0' ≤ c ∧ c ≤ '9' then some (c.toNat - '0'.toNat)
    else if 'a' ≤ c ∧ c ≤ 'f' then some (c.toNat - 'a'.toNat + 10)
    else if 'A' ≤ c ∧ c ≤ 'F' then some (c.toNat - 'A'.toNat + 10)
    else none
  value?.filter (· < radix)

/-- Whether a character is a digit in a radix. -/
def isDigitIn (radix : Nat) (c : Char) : Bool := (digitValue? radix c).isSome

/-- The number digits spell in a radix. Characters that are no digits count as nothing. -/
def digitsValue (radix : Nat) (cs : List Char) : Nat :=
  (cs.filterMap (digitValue? radix)).foldl (fun total digit => total * radix + digit) 0

/-- An optional sign: whether it is a minus, and the characters after it. -/
def splitSign : List Char → Bool × List Char
  | '-' :: rest => (true, rest)
  | '+' :: rest => (false, rest)
  | cs => (false, cs)

/-- The natural number a non-empty run of digits spells. -/
def readDigits? (radix : Nat) (cs : List Char) : Option Nat :=
  if cs ≠ [] ∧ cs.all (isDigitIn radix) then some (digitsValue radix cs) else none

/-- The integer a text spells, whatever its size. -/
def readInt? (cs : List Char) : Option Int :=
  let (negative, digits) := splitSign cs
  (readDigits? 10 digits).map fun n => if negative then -n else n

/-- The 64-bit integer a text spells, if it fits. -/
def readInt64? (cs : List Char) : Option Int64 :=
  ((readInt? cs).filter fun n => -9223372036854775808 ≤ n ∧ n ≤ 9223372036854775807).map .ofInt

/-- The pattern nearest to `digits * 10 ^ exponent`. Decimals that are beyond every finite number
or nearer to zero than to the least one are settled by their number of digits, so no large power
is computed for them. -/
def Layout.ofDecimal (L : Layout) (negative : Bool) (digits : Nat) (exponent : Int) : Nat :=
  if digits = 0 then L.signPart negative
  else
    let place := exponent + (toString digits).length
    if place > 400 then L.signPart negative + L.infinity
    else if place < -400 then L.signPart negative
    else if 0 ≤ exponent then L.nearest negative (digits * Nat.pow 10 exponent.toNat) 1 0
    else L.nearest negative digits (Nat.pow 10 (-exponent).toNat) 0

/-- The exponent after a decimal: absent, or a letter, an optional sign and digits. -/
def readExponent? : List Char → Option Int
  | [] => some 0
  | c :: rest => if c = 'e' ∨ c = 'E' then readInt? rest else none

/-- A decimal with an optional point and exponent: its digits, and the power of ten of the last
one. -/
def readDecimal? (cs : List Char) : Option (Nat × Int) := do
  let whole := cs.takeWhile (isDigitIn 10)
  let rest := cs.dropWhile (isDigitIn 10)
  let (fraction, rest) := match rest with
    | '.' :: after => (after.takeWhile (isDigitIn 10), after.dropWhile (isDigitIn 10))
    | _ => ([], rest)
  guard (whole ≠ [] ∨ fraction ≠ [])
  let exponent ← readExponent? rest
  return (digitsValue 10 (whole ++ fraction), exponent - fraction.length)

/-- The pattern a text spells: a decimal, or `inf`, `infinity` or `nan` in any case, after an
optional sign. -/
def Layout.readFloat? (L : Layout) (cs : List Char) : Option Nat :=
  let (negative, body) := splitSign cs
  match readDecimal? body with
  | some (digits, exponent) => some (L.ofDecimal negative digits exponent)
  | none =>
    let word := String.ofList (body.map Char.toLower)
    if word = "inf" ∨ word = "infinity" then some (L.signPart negative + L.infinity)
    else if word = "nan" then some (L.signPart negative + L.infinity + L.quietWeight)
    else none

/-- The 32-bit number a text spells. -/
def Binary32.ofChars? (cs : List Char) : Option Binary32 :=
  (Layout.binary32.readFloat? cs).map fun bits => ⟨bits.toUInt32⟩

/-- The 64-bit number a text spells. -/
def Binary64.ofChars? (cs : List Char) : Option Binary64 :=
  (Layout.binary64.readFloat? cs).map fun bits => ⟨bits.toUInt64⟩

end Immediate
