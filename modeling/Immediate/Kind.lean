/-! The kinds of values: integers of four widths, two floating-point kinds, text, references to
entities and positions of the host, and four containers. Each kind has a name, a one-byte number
that stands for it in encodings, and the operators its values support. -/
namespace Immediate

/-- An operator, or a family of operators, that values of a kind may support. -/
inductive Capability where
  | add | sub | mul | div | rem | negate | shift | bitwise | range
  deriving DecidableEq, Repr

/-- The integer kinds, by width. -/
inductive Width where
  | byte | short | int | long
  deriving DecidableEq, Repr

/-- The number of bits of an integer. -/
def Width.bits : Width → Nat
  | .byte => 8
  | .short => 16
  | .int => 32
  | .long => 64

/-- The kinds without contents of their own. -/
inductive Scalar where
  | integer (width : Width)
  | float | double | string | entity | position
  deriving DecidableEq, Repr

/-- The kinds of values. -/
inductive Kind where
  | scalar (s : Scalar)
  | list | iterator | map | entry
  deriving DecidableEq, Repr

namespace Capability

/-- Every capability. -/
def all : List Capability := [.add, .sub, .mul, .div, .rem, .negate, .shift, .bitwise, .range]

end Capability

namespace Kind

@[match_pattern] abbrev byte : Kind := .scalar (.integer .byte)

@[match_pattern] abbrev short : Kind := .scalar (.integer .short)

@[match_pattern] abbrev int : Kind := .scalar (.integer .int)

@[match_pattern] abbrev long : Kind := .scalar (.integer .long)

@[match_pattern] abbrev float : Kind := .scalar .float

@[match_pattern] abbrev double : Kind := .scalar .double

@[match_pattern] abbrev string : Kind := .scalar .string

@[match_pattern] abbrev entity : Kind := .scalar .entity

@[match_pattern] abbrev position : Kind := .scalar .position

/-- Every kind, by its number. -/
def all : List Kind :=
  [byte, short, int, long, float, double, string, entity, position, list, iterator, map, entry]

/-- The name of a kind, as casts write it. -/
def name : Kind → String
  | .byte => "byte"
  | .short => "short"
  | .int => "int"
  | .long => "long"
  | .float => "float"
  | .double => "double"
  | .string => "string"
  | .entity => "entity"
  | .position => "position"
  | .list => "list"
  | .iterator => "iterator"
  | .map => "map"
  | .entry => "entry"

/-- The byte that stands for a kind in encodings. Kinds without children are numbered from 0,
those with one from 16 and those with two from 32. -/
def id : Kind → UInt8
  | .byte => 0
  | .short => 1
  | .int => 2
  | .long => 3
  | .float => 4
  | .double => 5
  | .string => 6
  | .entity => 7
  | .position => 8
  | .list => 16
  | .iterator => 17
  | .map => 32
  | .entry => 33

/-- The kind a byte stands for. -/
def ofId? (n : UInt8) : Option Kind := all.find? (·.id = n)

/-- How many child types a type of this kind has. -/
def childCount : Kind → Nat
  | .scalar _ => 0
  | .list | .iterator => 1
  | .map | .entry => 2

/-- Whether values are integers. -/
def isInteger : Kind → Bool
  | .scalar (.integer _) => true
  | _ => false

/-- Whether values are numbers. -/
def isNumeric : Kind → Bool
  | .scalar (.integer _) | .float | .double => true
  | _ => false

/-- The operators values of a kind support. -/
def capabilities : Kind → List Capability
  | .scalar (.integer _) => Capability.all
  | .float | .double => [.add, .sub, .mul, .div, .rem, .negate]
  | .string | .list | .map => [.add]
  | .position => [.add, .sub, .negate]
  | .entity | .iterator | .entry => []

end Kind
end Immediate
