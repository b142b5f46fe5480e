import Immediate.Text.Blank
import Immediate.Number.Reading
/-! References to entities of the host: 128-bit numbers, written as hexadecimal digits in five
groups. -/
namespace Immediate

/-- A reference to an entity. -/
structure EntityId where
  bits : BitVec 128
  deriving DecidableEq, Repr

namespace EntityId

/-- The numbers of digits in the groups of a written reference. -/
def groups : List Nat := [8, 4, 4, 4, 12]

/-- The hexadecimal digits of a number, with leading zeros up to a width. -/
def hexadecimal (width n : Nat) : List Char :=
  let digits := Nat.toDigits 16 n
  List.replicate (width - digits.length) '0' ++ digits

/-- The lower half as a signed 64-bit integer, which is what the reference counts as where a
number is wanted. -/
def low (e : EntityId) : Int := (e.bits.setWidth 64).toInt

/-- The written form: groups of lower-case digits joined by hyphens. -/
def text (e : EntityId) : String :=
  let digits := hexadecimal 32 e.bits.toNat
  let group (start length : Nat) := String.ofList ((digits.drop start).take length)
  "-".intercalate [group 0 8, group 8 4, group 12 4, group 16 4, group 20 12]

/-- The number a text spells in hexadecimal digits, which a plus sign may precede. -/
def readHexadecimal? : List Char → Option Nat
  | '+' :: digits => readDigits? 16 digits
  | digits => readDigits? 16 digits

/-- The reference a text spells, blanks around it aside: five groups of the right lengths, read
together as one number. -/
def ofText? (s : String) : Option EntityId :=
  let pieces := Text.splitAt '-' (Text.trimChars s.toList)
  if pieces.map List.length = groups then
    (readHexadecimal? pieces.flatten).map fun n => ⟨BitVec.ofNat 128 n⟩
  else none

end EntityId
end Immediate
