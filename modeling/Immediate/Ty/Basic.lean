import Immediate.Kind
/-! Types: a kind with one slot per child. A slot may be unset, which leaves the child type to be
inferred when a value is cast. -/
namespace Immediate

/-- A type. -/
inductive Ty where
  | scalar (s : Scalar)
  | list (element : Option Ty)
  | iterator (element : Option Ty)
  | map (key value : Option Ty)
  | entry (key value : Option Ty)
  deriving Repr, Inhabited

namespace Ty

@[match_pattern] abbrev byte : Ty := .scalar (.integer .byte)

@[match_pattern] abbrev short : Ty := .scalar (.integer .short)

@[match_pattern] abbrev int : Ty := .scalar (.integer .int)

@[match_pattern] abbrev long : Ty := .scalar (.integer .long)

@[match_pattern] abbrev float : Ty := .scalar .float

@[match_pattern] abbrev double : Ty := .scalar .double

@[match_pattern] abbrev string : Ty := .scalar .string

@[match_pattern] abbrev entity : Ty := .scalar .entity

@[match_pattern] abbrev position : Ty := .scalar .position

mutual

/-- Types are equal when their kinds and all their child slots are. -/
def decEq : (a b : Ty) → Decidable (a = b)
  | .scalar s, .scalar t => decidable_of_iff (s = t) (by simp)
  | .list a, .list b | .iterator a, .iterator b =>
    have := decEqSlot a b
    decidable_of_iff (a = b) (by simp)
  | .map a b, .map c d | .entry a b, .entry c d =>
    have := decEqSlot a c
    have := decEqSlot b d
    decidable_of_iff (a = c ∧ b = d) (by simp)
  | .scalar _, .list _ | .scalar _, .iterator _ | .scalar _, .map .. | .scalar _, .entry ..
  | .list _, .scalar _ | .list _, .iterator _ | .list _, .map .. | .list _, .entry ..
  | .iterator _, .scalar _ | .iterator _, .list _ | .iterator _, .map .. | .iterator _, .entry ..
  | .map .., .scalar _ | .map .., .list _ | .map .., .iterator _ | .map .., .entry ..
  | .entry .., .scalar _ | .entry .., .list _ | .entry .., .iterator _ | .entry .., .map .. =>
    isFalse nofun

/-- Child slots are equal when both are unset or both hold the same type. -/
def decEqSlot : (a b : Option Ty) → Decidable (a = b)
  | none, none => isTrue rfl
  | some a, some b =>
    have := decEq a b
    decidable_of_iff (a = b) (by simp)
  | none, some _ | some _, none => isFalse nofun

end

instance : DecidableEq Ty := decEq

/-- The kind of a type. -/
def kind : Ty → Kind
  | .scalar s => .scalar s
  | .list _ => .list
  | .iterator _ => .iterator
  | .map .. => .map
  | .entry .. => .entry

/-- The child slots of a type, in order. -/
def children : Ty → List (Option Ty)
  | .scalar _ => []
  | .list element | .iterator element => [element]
  | .map key value | .entry key value => [key, value]

/-- The type of a kind with given child slots, when their number is right. -/
def ofChildren? : Kind → List (Option Ty) → Option Ty
  | .scalar s, [] => some (.scalar s)
  | .list, [element] => some (.list element)
  | .iterator, [element] => some (.iterator element)
  | .map, [key, value] => some (.map key value)
  | .entry, [key, value] => some (.entry key value)
  | _, _ => none

/-- The type of a kind with every child slot unset. -/
def ofKind : Kind → Ty
  | .scalar s => .scalar s
  | .list => .list none
  | .iterator => .iterator none
  | .map => .map none none
  | .entry => .entry none none

mutual

/-- Whether every child slot, at every depth, is set. -/
def isComplete : Ty → Bool
  | .scalar _ => true
  | .list element | .iterator element => isCompleteSlot element
  | .map key value | .entry key value => isCompleteSlot key && isCompleteSlot value

/-- Whether a child slot is set, and to a complete type. -/
def isCompleteSlot : Option Ty → Bool
  | none => false
  | some t => t.isComplete

end

mutual

/-- The text of a type, as casts write it. The list of children is left out when all are unset;
otherwise an unset child is a question mark. -/
def text : Ty → String
  | .scalar s => (Kind.scalar s).name
  | .list none => Kind.list.name
  | .iterator none => Kind.iterator.name
  | .map none none => Kind.map.name
  | .entry none none => Kind.entry.name
  | .list element => s!"{Kind.list.name}<{slotText element}>"
  | .iterator element => s!"{Kind.iterator.name}<{slotText element}>"
  | .map key value => s!"{Kind.map.name}<{slotText key}, {slotText value}>"
  | .entry key value => s!"{Kind.entry.name}<{slotText key}, {slotText value}>"

/-- The text of a child slot. -/
def slotText : Option Ty → String
  | none => "?"
  | some t => t.text

end

/-- Whether values of a type support all of some operators. -/
def supports (t : Ty) (required : List Capability) : Bool :=
  required.all t.kind.capabilities.contains

/-- Whether this is a list of shorts, the form of a string as 16-bit units. -/
def isUnitList : Ty → Bool
  | .list (some .short) => true
  | _ => false

theorem ofChildren?_children (t : Ty) : ofChildren? t.kind t.children = some t := by
  cases t <;> rfl

end Ty
end Immediate
