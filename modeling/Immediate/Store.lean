import Immediate.Eval.Host
import Immediate.TypedValue
/-! The store: named variables with their typed values, and the names of those that may have
changed since they were last asked for. A name is marked when its variable is declared, replaced
or handed out to be changed, and looking at a variable does not mark it. -/
namespace Immediate

/-- Variables, each name at most once, and the marked names. -/
structure Store where
  slots : List (VariableId × TypedValue)
  dirty : List VariableId

namespace Store

/-- A store without variables. -/
def empty : Store := ⟨[], []⟩

/-- The typed value of a variable. -/
def find? (s : Store) (id : VariableId) : Option TypedValue := s.slots.lookup id

/-- Looks at a variable. -/
def peek (s : Store) (id : VariableId) : Except EvalError TypedValue :=
  match s.find? id with
  | some t => .ok t
  | none => .error (.notFound id)

/-- Marks a name. -/
def mark (s : Store) (id : VariableId) : Store :=
  { s with dirty := if s.dirty.contains id then s.dirty else id :: s.dirty }

/-- Takes a variable to change it, which marks it. -/
def fetch (s : Store) (id : VariableId) : Except EvalError (TypedValue × Store) := do
  return (← s.peek id, s.mark id)

/-- Sets a variable, whether there is one of its name or not. -/
def put (s : Store) (id : VariableId) (t : TypedValue) : Store :=
  { s.mark id with slots := (id, t) :: s.slots.filter (·.1 ≠ id) }

/-- Declares a variable of a type. -/
def declare (s : Store) (id : VariableId) (ty : Ty) : Except EvalError Store :=
  match s.find? id with
  | some _ => .error (.alreadyExists id)
  | none => .ok (s.put id (.default ty))

/-- Removes a variable and its mark. -/
def remove (s : Store) (id : VariableId) : Except EvalError (TypedValue × Store) := do
  let t ← s.peek id
  return (t, ⟨s.slots.filter (·.1 ≠ id), s.dirty.filter (· ≠ id)⟩)

/-- The names of the variables, in order. -/
def ids (s : Store) : List VariableId := VariableId.sort (s.slots.map (·.1))

/-- Whether a name is marked. -/
def isDirty (s : Store) (id : VariableId) : Bool := s.dirty.contains id

/-- The marked names, in order, and the store without marks. -/
def takeDirty (s : Store) : List VariableId × Store :=
  (VariableId.sort s.dirty, { s with dirty := [] })

/-- How many variables there are. -/
def size (s : Store) : Nat := s.slots.length

/-- What evaluation may consult: the variables, and the world. -/
def context (s : Store) (world : World) : Context := ⟨fun id => (s.find? id).map (·.slot), world⟩

end Store
end Immediate
