import Immediate.Eval.Stream
/-! Operands: one value, or a stream of them. An operation on operands fans out. On single ones it
runs once, and its error is the error of the whole. As soon as one is a stream it runs for each
element, the single ones being repeated and several streams going in step; an element on which
it fails is dropped and its error reported. The operation is told which time it runs, as what it
asks a host may be answered differently each time. -/
namespace Immediate

/-- One value, or a stream. -/
inductive Operand (α : Type) where
  | single (value : α)
  | many (stream : Stream α)

/-- An operand whose stream has been run. -/
inductive Evaluated where
  | single (slot : Slot)
  | many (slots : List Slot)

namespace Operand

variable {α β γ : Type}

/-- All values as one stream. -/
def toStream : Operand α → Stream α
  | .single value => .yield value fun _ => .done
  | .many stream => stream

/-- A list as a stream of values. -/
def spread (values : List α) : Operand α := .many (.ofList values)

/-- The value, when there is just one. A stream is refused even if it holds one value. -/
def single? : Operand α → Except EvalError α
  | .single value => .ok value
  | .many _ => .error .manyToSingle

/-- Two operands in step. -/
def zipWith (f : α → β → γ) : Operand α → Operand β → Operand γ
  | .single a, .single b => .single (f a b)
  | .single a, .many t => .many (t.map (f a))
  | .many s, .single b => .many (s.map (f · b))
  | .many s, .many t => .many (s.zipWith f t)

/-- Any number of operands in step. Without a stream there is exactly one tuple. -/
def tuples : List (Operand α) → Operand (List α)
  | [] => .single []
  | operand :: rest => zipWith (· :: ·) operand (tuples rest)

/-- The stream of one element's results, or the report of its error. -/
def resultsOrReport (result : Except EvalError (Operand β)) : Stream β :=
  match result with
  | .ok operand => operand.toStream
  | .error error => .report error fun _ => .done

/-- Applies an operation to one operand. -/
def fanOutOne (operation : Nat → α → Except EvalError (Operand β)) :
    Operand α → Except EvalError (Operand β)
  | .single value => operation 0 value
  | .many stream =>
    .ok (.many ((stream.zipIdx 0).flatMap fun (value, n) => resultsOrReport (operation n value)))

/-- Applies an operation to operands in step. -/
def fanOut (operation : Nat → List α → Except EvalError (Operand β)) (operands : List (Operand α)) :
    Except EvalError (Operand β) :=
  fanOutOne operation (tuples operands)

/-- All operands as one stream, one after another. -/
def concat : List (Operand α) → Stream α
  | [] => .done
  | operand :: rest => operand.toStream.append fun _ => concat rest

/-- Runs the stream of an operand: the errors it reports, and its values. -/
def drain : Operand Slot → List EvalError × Evaluated
  | .single slot => ([], .single slot)
  | .many stream => (stream.drain.1, .many stream.drain.2)

end Operand

namespace Evaluated

/-- All values. -/
def values : Evaluated → List Slot
  | .single slot => [slot]
  | .many slots => slots

/-- The value, when there is just one. -/
def single? : Evaluated → Except EvalError Slot
  | .single slot => .ok slot
  | .many _ => .error .manyToSingle

/-- The written form: a value, or the values of a stream in square brackets. -/
def text : Evaluated → String
  | .single slot => Value.slotText slot
  | .many slots => "[" ++ ", ".intercalate (slots.map Value.slotText) ++ "]"

end Evaluated
end Immediate
