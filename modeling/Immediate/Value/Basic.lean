import Immediate.Ty.Basic
import Immediate.Value.Entity
import Immediate.Value.Position
import Immediate.Text.Units
/-! Values. A value is never null: wherever one may be missing, in a list, under a map key, in
half of an entry or in a variable, there is a slot that may be empty. A container carries the
child types it was declared with, beside its contents. -/
namespace Immediate

/-- A value. A map holds its pairs in the order of insertion, and no two of its keys are the same
(`Value.same`). An iterator is a snapshot of what it walks over. -/
inductive Value where
  | integer (width : Width) (n : BitVec width.bits)
  | float (x : Binary32)
  | double (x : Binary64)
  | string (s : String)
  | entity (e : EntityId)
  | position (p : Position)
  | list (element : Option Ty) (items : List (Option Value))
  | iterator (element : Option Ty) (items : List (Option Value))
  | map (keyTy valueTy : Option Ty) (pairs : List (Value × Option Value))
  | entry (keyTy valueTy : Option Ty) (key value : Option Value)

/-- A place that holds a value or nothing. -/
abbrev Slot := Option Value

namespace Value

/-- The integer of a width that is congruent to a number modulo the size of its range. -/
def ofInt (width : Width) (n : Int) : Value := .integer width (BitVec.ofInt width.bits n)

/-- The 32-bit integer of a number, which is how positions and counts are given. -/
def int (n : Int) : Value := ofInt .int n

/-- The kind of a value. -/
def kind : Value → Kind
  | .integer width _ => .scalar (.integer width)
  | .float _ => .float
  | .double _ => .double
  | .string _ => .string
  | .entity _ => .entity
  | .position _ => .position
  | .list .. => .list
  | .iterator .. => .iterator
  | .map .. => .map
  | .entry .. => .entry

mutual

/-- The type of a value. Lists, iterators and maps have the child types they were declared with;
an entry without a declared one has that of its half. -/
def ty : Value → Ty
  | .integer width _ => .scalar (.integer width)
  | .float _ => .float
  | .double _ => .double
  | .string _ => .string
  | .entity _ => .entity
  | .position _ => .position
  | .list element _ => .list element
  | .iterator element _ => .iterator element
  | .map keyTy valueTy _ => .map keyTy valueTy
  | .entry keyTy valueTy key value => .entry (keyTy.or (slotTy? key)) (valueTy.or (slotTy? value))

/-- The type of the value in a slot. -/
def slotTy? : Option Value → Option Ty
  | none => none
  | some v => some v.ty

end

/-- An entry that declares the types of its halves. -/
def ofHalves (key value : Slot) : Value := .entry (slotTy? key) (slotTy? value) key value

/-- The pairs of a map as entries that declare the map's child types. -/
def entries (keyTy valueTy : Option Ty) (pairs : List (Value × Slot)) : List Slot :=
  pairs.map fun (key, value) => some (.entry keyTy valueTy (some key) value)

/-- The 16-bit units of a text, as shorts. -/
def unitSlots (s : String) : List Slot :=
  (Text.units s).map fun u => some (.integer .short u.toBitVec)

/-- How many things a container holds. -/
def count? : Value → Option Nat
  | .list _ items | .iterator _ items => some items.length
  | .map _ _ pairs => some pairs.length
  | _ => none

end Value
end Immediate
