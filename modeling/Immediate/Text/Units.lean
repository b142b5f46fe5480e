/-! Text as 16-bit units. A character above U+FFFF takes two units, a high and a low
surrogate; every other character is one unit. -/
namespace Immediate.Text

/-- The units of one character. -/
def charUnits (c : Char) : List UInt16 :=
  let n := c.toNat
  if n < 0x10000 then [n.toUInt16]
  else [(0xD800 + (n - 0x10000) / 0x400).toUInt16, (0xDC00 + (n - 0x10000) % 0x400).toUInt16]

/-- The units of a text, in order. -/
def units (s : String) : List UInt16 := s.toList.flatMap charUnits

/-- The first unit of a pair. -/
def isHighSurrogate (u : UInt16) : Bool := 0xD800 ≤ u && u < 0xDC00

/-- The second unit of a pair. -/
def isLowSurrogate (u : UInt16) : Bool := 0xDC00 ≤ u && u < 0xE000

/-- The character two surrogates spell together. -/
def joinSurrogates (high low : UInt16) : Char :=
  Char.ofNat (0x10000 + (high.toNat - 0xD800) * 0x400 + (low.toNat - 0xDC00))

/-- The characters units spell; `none` stands for a surrogate without its partner. -/
def spell : List UInt16 → List (Option Char)
  | [] => []
  | [u] => [if isHighSurrogate u || isLowSurrogate u then none else some (Char.ofNat u.toNat)]
  | u :: v :: rest =>
    if isHighSurrogate u then
      if isLowSurrogate v then some (joinSurrogates u v) :: spell rest
      else none :: spell (v :: rest)
    else if isLowSurrogate u then none :: spell (v :: rest)
    else some (Char.ofNat u.toNat) :: spell (v :: rest)

/-- The text units spell, when every surrogate has its partner. -/
def ofUnits? (us : List UInt16) : Option String :=
  ((spell us).mapM id).map String.ofList

/-- The text units spell, with U+FFFD in place of each surrogate without its partner. -/
def ofUnitsLossy (us : List UInt16) : String :=
  String.ofList ((spell us).map (·.getD '\uFFFD'))

end Immediate.Text
