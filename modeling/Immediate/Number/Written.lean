import Immediate.Number.Shortest
/-! Written floating-point numbers: the shortest decimal, with at least one digit after the point
while it is written positionally, and in exponent form where the magnitude is very small or very
large. -/
namespace Immediate

/-- Where positional writing ends: it is used for numbers from `10 ^ lowest` to just below
`10 ^ beyond`. -/
structure FloatText where
  lowest : Int
  beyond : Int

namespace FloatText

/-- Numbers from a ten-thousandth to just below ten to the sixteenth are written positionally. -/
def shown : FloatText := ⟨-4, 16⟩

/-- A positive decimal written positionally. -/
def positional (d : Decimal) : String :=
  let digits := (toString d.digits).toList
  if 0 ≤ d.exponent then
    String.ofList (digits ++ List.replicate d.exponent.toNat '0' ++ ['.', '0'])
  else
    let places := (-d.exponent).toNat
    let padded := List.replicate (places + 1 - digits.length) '0' ++ digits
    let whole := padded.length - places
    String.ofList (padded.take whole ++ '.' :: padded.drop whole)

/-- A positive decimal in exponent form. -/
def scientific (d : Decimal) : String :=
  match (toString d.digits).toList with
  | [] => ""
  | [lead] => s!"{lead}e{d.exponent}"
  | lead :: rest => s!"{lead}.{String.ofList rest}e{d.exponent + rest.length}"

/-- A positive decimal, in the form its magnitude asks for. -/
def decimal (f : FloatText) (d : Decimal) : String :=
  let place := d.exponent + (toString d.digits).length - 1
  if f.lowest ≤ place ∧ place < f.beyond then positional d else scientific d

/-- The text of what a pattern stands for. -/
def write (f : FloatText) (L : Layout) : Datum → String
  | .nan .. => "NaN"
  | .infinite negative => if negative then "-inf" else "inf"
  | .finite negative significand exponent =>
    let sign := if negative then "-" else ""
    sign ++ if significand = 0 then "0.0" else f.decimal (Decimal.shortest L significand exponent)

end FloatText

/-- The text of a 32-bit number, with the fewest digits that tell it from other 32-bit numbers. -/
def Binary32.text (x : Binary32) : String := FloatText.shown.write .binary32 x.datum

/-- The text of a 64-bit number. -/
def Binary64.text (x : Binary64) : String := FloatText.shown.write .binary64 x.datum

end Immediate
