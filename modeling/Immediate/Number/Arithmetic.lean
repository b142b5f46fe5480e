import Immediate.Number.Binary
/-! Floating-point numbers of 32 and 64 bits, held as their bit patterns, with the arithmetic of
the 64-bit ones. Every result is the nearest number to the exact one. An operation on a NaN
returns the first NaN among its operands, made quiet; an operation without a meaning (infinity
minus infinity, zero times infinity, zero by zero, a remainder of infinity or by zero) returns
the negative quiet NaN. -/
namespace Immediate

/-- A 32-bit floating-point number. -/
structure Binary32 where
  bits : UInt32
  deriving DecidableEq, Repr, Inhabited

/-- A 64-bit floating-point number. -/
structure Binary64 where
  bits : UInt64
  deriving DecidableEq, Repr, Inhabited

namespace Binary32

/-- What the number stands for. -/
def datum (x : Binary32) : Datum := Layout.binary32.decode x.bits.toNat

/-- The number nearest to a datum. -/
def ofDatum (d : Datum) : Binary32 := ⟨(Layout.binary32.encode d).toUInt32⟩

/-- The number with the other sign; a NaN changes its sign too. -/
def negate (x : Binary32) : Binary32 := ⟨x.bits ^^^ 0x80000000⟩

/-- The number without its sign. -/
def magnitude (x : Binary32) : Binary32 := ⟨x.bits &&& 0x7FFFFFFF⟩

end Binary32

namespace Binary64

/-- What the number stands for. -/
def datum (x : Binary64) : Datum := Layout.binary64.decode x.bits.toNat

/-- The number nearest to a datum. -/
def ofDatum (d : Datum) : Binary64 := ⟨(Layout.binary64.encode d).toUInt64⟩

/-- The number nearest to a signed ratio times a power of two. -/
def ofRatio (negative : Bool) (numerator denominator : Nat) (exponent : Int) : Binary64 :=
  ⟨(Layout.binary64.nearest negative numerator denominator exponent).toUInt64⟩

/-- The number nearest to an integer. -/
def ofInt (n : Int) : Binary64 := ofRatio (n < 0) n.natAbs 1 0

/-- The positive zero. -/
def zero : Binary64 := ⟨0⟩

/-- The quiet NaN without a sign. -/
def nan : Binary64 := ⟨0x7FF8000000000000⟩

/-- The result of an operation without a meaning. -/
def invalid : Binary64 := ⟨0xFFF8000000000000⟩

/-- The infinity of a sign. -/
def infinite (negative : Bool) : Binary64 := ofDatum (.infinite negative)

/-- The number with the other sign; a NaN changes its sign too. -/
def negate (x : Binary64) : Binary64 := ⟨x.bits ^^^ 0x8000000000000000⟩

/-- The number without its sign. -/
def magnitude (x : Binary64) : Binary64 := ⟨x.bits &&& 0x7FFFFFFFFFFFFFFF⟩

/-- Whether the number is neither infinite nor a NaN. -/
def isFinite (x : Binary64) : Bool :=
  match x.datum with
  | .finite .. => true
  | _ => false

/-- Runs an operation on what two numbers stand for, unless one is a NaN. -/
def onNumbers (x y : Binary64) (operation : Datum → Datum → Binary64) : Binary64 :=
  match x.datum, y.datum with
  | .nan negative payload, _ => ofDatum (.nan negative payload)
  | _, .nan negative payload => ofDatum (.nan negative payload)
  | a, b => operation a b

/-- The significand with its sign. -/
def signed (negative : Bool) (significand : Nat) : Int :=
  if negative then -significand else significand

/-- The sum. Numbers that cancel give a positive zero; two negative zeros give a negative one. -/
def add (x y : Binary64) : Binary64 := onNumbers x y fun
  | .infinite s, .infinite t => if s = t then x else invalid
  | .infinite _, _ => x
  | _, .infinite _ => y
  | .finite s m e, .finite t n f =>
    let place := min e f
    let sum := signed s (m * Nat.pow 2 (e - place).toNat) +
      signed t (n * Nat.pow 2 (f - place).toNat)
    ofRatio (if sum = 0 then s && t else sum < 0) sum.natAbs 1 place
  | _, _ => invalid

/-- The difference. -/
def sub (x y : Binary64) : Binary64 := onNumbers x y fun _ _ => add x y.negate

/-- The product. -/
def mul (x y : Binary64) : Binary64 := onNumbers x y fun
  | .infinite s, .infinite t => infinite (s != t)
  | .infinite s, .finite t n _ => if n = 0 then invalid else infinite (s != t)
  | .finite s m _, .infinite t => if m = 0 then invalid else infinite (s != t)
  | .finite s m e, .finite t n f => ofRatio (s != t) (m * n) 1 (e + f)
  | _, _ => invalid

/-- The quotient. -/
def div (x y : Binary64) : Binary64 := onNumbers x y fun
  | .infinite _, .infinite _ => invalid
  | .infinite s, .finite t _ _ => infinite (s != t)
  | .finite s _ _, .infinite t => ofRatio (s != t) 0 1 0
  | .finite s m e, .finite t n f =>
    if n = 0 then if m = 0 then invalid else infinite (s != t)
    else ofRatio (s != t) m n (e - f)
  | _, _ => invalid

/-- The remainder of the quotient cut toward zero. It is exact and has the dividend's sign. -/
def rem (x y : Binary64) : Binary64 := onNumbers x y fun
  | .infinite _, _ => invalid
  | .finite .., .infinite _ => x
  | .finite s m e, .finite _ n f =>
    if n = 0 then invalid
    else
      let place := min e f
      ofRatio s (m * Nat.pow 2 (e - place).toNat % (n * Nat.pow 2 (f - place).toNat)) 1 place
  | _, _ => invalid

/-- The order key of a number that is no NaN: its pattern's magnitude with the sign, so that the
two zeros coincide. -/
def key (x : Binary64) : Int :=
  if x.bits ≥ 0x8000000000000000 then -(x.magnitude.bits.toNat : Int) else x.bits.toNat

/-- Whether the number is a NaN. -/
def isNaN (x : Binary64) : Bool :=
  match x.datum with
  | .nan .. => true
  | _ => false

/-- The order of two numbers, unless one is a NaN. -/
def order? (x y : Binary64) : Option Ordering :=
  if x.isNaN || y.isNaN then none else some (compare x.key y.key)

/-- The largest integer not above `significand * 2 ^ exponent` with its sign. -/
def floorOf (negative : Bool) (significand : Nat) (exponent : Int) : Int :=
  let scaled := signed negative (significand * Nat.pow 2 exponent.toNat)
  scaled.fdiv (Nat.pow 2 (-exponent).toNat : Nat)

/-- The integer in a closed range nearest to another. -/
def clamp (low high n : Int) : Int := max low (min high n)

/-- The integer part in a closed range: NaN gives zero, a number outside the range its nearer
end. -/
def truncateWithin (low high : Int) (x : Binary64) : Int :=
  match x.datum with
  | .nan .. => 0
  | .infinite negative => if negative then low else high
  | .finite negative significand exponent =>
    let scaled := significand * Nat.pow 2 exponent.toNat
    clamp low high (signed negative (scaled / Nat.pow 2 (-exponent).toNat))

/-- The integer part as a 64-bit integer, at the nearer end where it does not fit. -/
def toInt64 (x : Binary64) : Int64 :=
  .ofInt (x.truncateWithin (-9223372036854775808) 9223372036854775807)

/-- The largest integer not above the number, within the 128-bit signed range. -/
def floorInt128 (x : Binary64) : Int :=
  let high : Int := Nat.pow 2 127 - 1
  match x.datum with
  | .nan .. => 0
  | .infinite negative => if negative then -high - 1 else high
  | .finite negative significand exponent =>
    clamp (-high - 1) high (floorOf negative significand exponent)

/-- The nearest 32-bit number. A NaN keeps its sign and the upper bits of its payload. -/
def narrow (x : Binary64) : Binary32 :=
  .ofDatum (match x.datum with
    | .nan negative payload => .nan negative (payload / Nat.pow 2 29)
    | d => d)

end Binary64

/-- The same number in 64 bits. A NaN keeps its sign and payload, and becomes quiet. -/
def Binary32.widen (x : Binary32) : Binary64 :=
  .ofDatum (match x.datum with
    | .nan negative payload => .nan negative (payload * Nat.pow 2 29)
    | d => d)

end Immediate
