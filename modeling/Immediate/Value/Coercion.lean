import Immediate.Value.Basic
import Immediate.Number.Reading
/-! What a value counts as where a number is wanted. -/
namespace Immediate.Value

/-- The integer a text spells, blanks around it aside: a 64-bit integer, or else the integer part
of a finite decimal. -/
def integerOfText? (s : String) : Option Int :=
  let cs := Text.trimChars s.toList
  match readInt64? cs with
  | some n => some n.toInt
  | none => ((Binary64.ofChars? cs).filter (·.isFinite)).map fun x => x.toInt64.toInt

/-- The signed 64-bit integer a value counts as. Numbers lose their fraction, texts are read,
containers count their contents, and an entity is its lower half. Positions and entries count as
nothing. -/
def toInteger? : Value → Option Int
  | .integer _ n => some n.toInt
  | .float x => some x.widen.toInt64.toInt
  | .double x => some x.toInt64.toInt
  | .string s => integerOfText? s
  | .entity e => some e.low
  | .list _ items | .iterator _ items => some items.length
  | .map _ _ pairs => some pairs.length
  | .position _ | .entry .. => none

/-- The floating-point number a value counts as: that of its text, or of its integer. -/
def toBinary64? : Value → Option Binary64
  | .float x => some x.widen
  | .double x => some x
  | .string s => Binary64.ofChars? (Text.trimChars s.toList)
  | v => v.toInteger?.map Binary64.ofInt

end Immediate.Value
