import Immediate.Number.Arithmetic
/-! The shortest decimal of a floating-point number: among the decimals that read back to the
number, those with the fewest digits, and of these the nearest to it; of two equally near ones
the larger. -/
namespace Immediate

/-- The decimal `digits * 10 ^ exponent`. -/
structure Decimal where
  digits : Nat
  exponent : Int
  deriving DecidableEq, Repr

namespace Decimal

/-- The digits without trailing zeros, which move to the exponent. The fuel is the number of
digits at most. -/
def strip : Nat → Decimal → Decimal
  | 0, d => d
  | fuel + 1, d =>
    if d.digits % 10 = 0 ∧ d.digits ≠ 0 then strip fuel ⟨d.digits / 10, d.exponent + 1⟩ else d

/-- The reals that read back to a number, as numerators over one denominator: the number itself,
the two ends, and whether the ends belong. -/
structure Interval where
  low : Nat
  value : Nat
  high : Nat
  denominator : Nat
  closed : Bool

/-- The interval around `significand * 2 ^ exponent`. The lower neighbour of a power of two is
only half as far away as the upper one, unless the places below are as wide (`isLowest`). An
even significand wins ties when read, so the ends belong to it. -/
def Interval.around (L : Layout) (significand : Nat) (exponent : Int) : Interval :=
  let scale := Nat.pow 2 (exponent - 2).toNat
  let isPower := significand = Nat.pow 2 L.fractionBits ∧ exponent ≠ L.lowestExponent
  { low := (4 * significand - if isPower then 1 else 2) * scale
    value := 4 * significand * scale
    high := (4 * significand + 2) * scale
    denominator := Nat.pow 2 (2 - exponent).toNat
    closed := significand % 2 = 0 }

/-- Whether `digits * 10 ^ exponent` lies in the interval. -/
def Interval.holds (i : Interval) (d : Decimal) : Bool :=
  let point := d.digits * Nat.pow 10 d.exponent.toNat * i.denominator
  let unit := Nat.pow 10 (-d.exponent).toNat
  if i.closed then i.low * unit ≤ point && point ≤ i.high * unit
  else i.low * unit < point && point < i.high * unit

/-- The nearest decimal in the interval with a given last place, if there is one. Only the two
neighbours of the value can be nearest. -/
def Interval.onGrid (i : Interval) (exponent : Int) : Option Decimal :=
  let unit := Nat.pow 10 exponent.toNat * i.denominator
  let scaled := i.value * Nat.pow 10 (-exponent).toNat
  let below : Decimal := ⟨scaled / unit, exponent⟩
  let above : Decimal := ⟨scaled / unit + 1, exponent⟩
  match i.holds below, i.holds above with
  | true, true => if 2 * (scaled % unit) < unit then some below else some above
  | true, false => some below
  | false, true => some above
  | false, false => none

/-- The first decimal found on grids of ever smaller places. -/
def Interval.search (i : Interval) : Nat → Int → Decimal
  | 0, exponent =>
    let unit := Nat.pow 10 exponent.toNat * i.denominator
    ⟨i.value * Nat.pow 10 (-exponent).toNat / unit, exponent⟩
  | fuel + 1, exponent => (i.onGrid exponent).getD (i.search fuel (exponent - 1))

/-- The exponent of the largest power of ten that is at most a positive ratio. -/
def ratioPlace (numerator denominator : Nat) : Int :=
  if numerator ≥ denominator then
    ((toString (numerator / denominator)).length : Int) - 1
  else
    Int.neg (toString ((denominator + numerator - 1) / numerator - 1)).length

/-- The most digits a 64-bit number ever needs. -/
def maxDigits : Nat := 17

/-- The shortest decimal of the positive number `significand * 2 ^ exponent`. -/
def shortest (L : Layout) (significand : Nat) (exponent : Int) : Decimal :=
  let i := Interval.around L significand exponent
  strip 20 (i.search maxDigits (ratioPlace i.value i.denominator))

end Decimal
end Immediate
