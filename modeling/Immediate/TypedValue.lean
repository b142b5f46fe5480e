import Immediate.Value.Cast
/-! Typed values, the unit that a variable stores: a type, and a slot whose value has been cast to
it. -/
namespace Immediate

/-- A type and a slot. -/
structure TypedValue where
  ty : Ty
  slot : Slot

/-- What a variable of a type holds at first: zero, an empty text or container, the origin.
Entities and entries have no such value and start out empty. -/
def Ty.default : Ty → Slot
  | .scalar (.integer width) => some (.ofInt width 0)
  | .float => some (.float ⟨0⟩)
  | .double => some (.double .zero)
  | .string => some (.string "")
  | .position => some (.position .origin)
  | .list element => some (.list element [])
  | .iterator element => some (.iterator element [])
  | .map keyTy valueTy => some (.map keyTy valueTy [])
  | .entity | .entry .. => none

namespace TypedValue

/-- A type and the value of a slot cast to it. -/
def ofSlot (ty : Ty) (slot : Slot) : Except EvalError TypedValue :=
  TypedValue.mk ty <$> Value.castSlot (some ty) slot

/-- A type and an empty slot. -/
def empty (ty : Ty) : TypedValue := ⟨ty, none⟩

/-- A type and what its variables hold at first. -/
def default (ty : Ty) : TypedValue := ⟨ty, ty.default⟩

/-- The same type with another value, cast to it. -/
def assign (t : TypedValue) (slot : Slot) : Except EvalError TypedValue := ofSlot t.ty slot

/-- Whether two typed values have one type and the same value. -/
def same (a b : TypedValue) : Bool := a.ty = b.ty && Value.sameSlot a.slot b.slot

/-- The written form. -/
def text (t : TypedValue) : String := Value.slotText t.slot ++ " (" ++ t.ty.text ++ ")"

end TypedValue
end Immediate
