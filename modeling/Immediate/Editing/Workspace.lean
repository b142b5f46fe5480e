import Immediate.Eval.Expression
import Immediate.Store
/-! Work on a store. Beside the store it keeps the errors of stream elements that were dropped and
the slots that changed. An error ends the work at hand but takes nothing of this back. -/
namespace Immediate

/-- A store, the errors that were reported, and the slots that were changed, the earliest first. -/
structure Workspace where
  store : Store
  reports : List EvalError
  changes : List (VariableId × Location)

/-- A workspace around a store. -/
def Workspace.of (store : Store) : Workspace := ⟨store, [], []⟩

/-- Work that may fail with errors of a kind. -/
abbrev Work (ε : Type) := ExceptT ε (StateM Workspace)

/-- Work on values. -/
abbrev Edit := Work EvalError

namespace Edit

variable {α : Type}

/-- Notes errors of dropped elements. -/
def report (errors : List EvalError) : Edit Unit :=
  modify fun w => { w with reports := w.reports ++ errors }

/-- Notes that a slot changed. -/
def change (id : VariableId) (location : Location) : Edit Unit :=
  modify fun w => { w with changes := w.changes ++ [(id, location)] }

/-- The store as it is now. -/
def store : Edit Store := return (← get).store

/-- Replaces the store. -/
def setStore (store : Store) : Edit Unit := modify fun w => { w with store }

/-- The variables, and the world. -/
def context (world : World) : Edit Context := return (← store).context world

/-- Runs the stream of an operand. -/
def drain (operand : Operand Slot) : Edit Evaluated := do
  let (errors, evaluated) := operand.drain
  report errors
  return evaluated

/-- Runs code to the end of its stream. -/
def run (world : World) (code : Code) : Edit Evaluated := do
  drain (← code.execute (← context world))

/-- Evaluates an expression to the end of its stream. -/
def evaluate (world : World) (e : Expression) : Edit Evaluated := do
  drain (← e.evaluate (← context world))

/-- Compares what two expressions evaluate to, the left one being evaluated first. -/
def compare (world : World) (left : Expression) (op : CompareOp) (right : Expression) :
    Edit Comparison := do
  let context ← context world
  let left ← left.evaluate (context.within 0)
  let right ← right.evaluate (context.within 1)
  let (errors, comparison) ← Comparison.ofOperands op left right
  report errors
  return comparison

/-- What came of one of several targets: its error is reported where they form a stream, and ends
the work otherwise. -/
def settle (isStream : Bool) (result : Except EvalError α) : Edit (Option α) :=
  match result with
  | .ok a => return some a
  | .error e => do
    if isStream then
      report [e]
      return none
    else throw e

end Edit
end Immediate
