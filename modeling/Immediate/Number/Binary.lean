/-! Binary floating-point layouts as arithmetic on bit patterns: what a pattern stands for, and
the pattern nearest to a ratio. Everything is exact integer arithmetic. -/
namespace Immediate

/-- The widths of a binary floating-point layout: bits of the stored fraction and bits of the
exponent field. One sign bit stands in front of both. -/
structure Layout where
  fractionBits : Nat
  exponentBits : Nat

/-- What a bit pattern stands for. A finite number is its significand times two to its
exponent. -/
inductive Datum where
  | nan (negative : Bool) (payload : Nat)
  | infinite (negative : Bool)
  | finite (negative : Bool) (significand : Nat) (exponent : Int)
  deriving Repr, DecidableEq

namespace Layout

/-- The 32-bit layout. -/
def binary32 : Layout := ⟨23, 8⟩

/-- The 64-bit layout. -/
def binary64 : Layout := ⟨52, 11⟩

/-- The weight of the sign bit. -/
def signWeight (L : Layout) : Nat := Nat.pow 2 (L.fractionBits + L.exponentBits)

/-- The exponent field of the infinities and NaNs. -/
def topField (L : Layout) : Nat := Nat.pow 2 L.exponentBits - 1

/-- The pattern of the positive infinity. -/
def infinity (L : Layout) : Nat := L.topField * Nat.pow 2 L.fractionBits

/-- The fraction bit that tells a quiet NaN from a signalling one. -/
def quietWeight (L : Layout) : Nat := Nat.pow 2 (L.fractionBits - 1)

/-- The exponent of the last place of the smallest finite numbers. -/
def lowestExponent (L : Layout) : Int := 2 - (Nat.pow 2 (L.exponentBits - 1) : Nat) - L.fractionBits

/-- The sign bit's contribution to a pattern. -/
def signPart (L : Layout) (negative : Bool) : Nat := if negative then L.signWeight else 0

/-- What a bit pattern stands for. -/
def decode (L : Layout) (bits : Nat) : Datum :=
  let negative := bits / L.signWeight % 2 = 1
  let field := bits % L.signWeight / Nat.pow 2 L.fractionBits
  let fraction := bits % Nat.pow 2 L.fractionBits
  if field = L.topField then
    if fraction = 0 then .infinite negative else .nan negative fraction
  else if field = 0 then .finite negative fraction L.lowestExponent
  else .finite negative (Nat.pow 2 L.fractionBits + fraction) (L.lowestExponent + field - 1)

/-- The quotient rounded to the nearest integer, a half going to the even neighbour. -/
def divideToEven (numerator denominator : Nat) : Nat :=
  let quotient := numerator / denominator
  let twice := 2 * (numerator % denominator)
  if twice > denominator ∨ (twice = denominator ∧ quotient % 2 = 1) then quotient + 1
  else quotient

/-- The exponent of the largest power of two that is at most a positive ratio. -/
def ratioExponent (numerator denominator : Nat) : Int :=
  let guess : Int := numerator.log2 - denominator.log2
  let reached := numerator * Nat.pow 2 (-guess).toNat ≥ denominator * Nat.pow 2 guess.toNat
  if reached then guess else guess - 1

/-- The pattern nearest to `numerator / denominator * 2 ^ exponent`, halves going to the even
neighbour and too large magnitudes to infinity. The exponent field and the fraction of a
pattern read as one number count the magnitudes in order, so a carry out of the fraction needs
no case of its own. -/
def nearest (L : Layout) (negative : Bool) (numerator denominator : Nat) (exponent : Int) : Nat :=
  if numerator = 0 then L.signPart negative
  else
    let place := max (ratioExponent numerator denominator + exponent - L.fractionBits)
      L.lowestExponent
    let shift := exponent - place
    let significand := divideToEven (numerator * Nat.pow 2 shift.toNat)
      (denominator * Nat.pow 2 (-shift).toNat)
    let magnitude := (place - L.lowestExponent).toNat * Nat.pow 2 L.fractionBits + significand
    L.signPart negative + min magnitude L.infinity

/-- The pattern a datum is rounded to. A NaN becomes quiet. -/
def encode (L : Layout) : Datum → Nat
  | .nan negative payload =>
    L.signPart negative + L.infinity + L.quietWeight + payload % L.quietWeight
  | .infinite negative => L.signPart negative + L.infinity
  | .finite negative significand exponent => L.nearest negative significand 1 exponent

end Layout
end Immediate
