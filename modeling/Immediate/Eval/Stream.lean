import Immediate.EvalError
/-! Lazy streams. A stream yields values one by one, and between them it may report errors: an
element that could not be computed is dropped and its error told instead. Nothing is computed
before it is asked for, so a reader that stops early sees no later errors. -/
namespace Immediate

/-- A stream. -/
inductive Stream (α : Type) where
  | done
  | yield (value : α) (rest : Unit → Stream α)
  | report (error : EvalError) (rest : Unit → Stream α)

namespace Stream

variable {α β γ : Type}

/-- The stream of a list's members. -/
def ofList : List α → Stream α
  | [] => .done
  | value :: rest => .yield value fun _ => ofList rest

/-- What a stream tells: its values and the errors between them, in order. -/
def events : Stream α → List (EvalError ⊕ α)
  | .done => []
  | .yield value rest => .inr value :: events (rest ())
  | .report error rest => .inl error :: events (rest ())

/-- The stream with every value changed. -/
def map (f : α → β) : Stream α → Stream β
  | .done => .done
  | .yield value rest => .yield (f value) fun _ => map f (rest ())
  | .report error rest => .report error fun _ => map f (rest ())

/-- The stream with its values numbered, the first one from a number on. -/
def zipIdx : Stream α → Nat → Stream (α × Nat)
  | .done, _ => .done
  | .yield value rest, n => .yield (value, n) fun _ => zipIdx (rest ()) (n + 1)
  | .report error rest, n => .report error fun _ => zipIdx (rest ()) n

/-- One stream after another. -/
def append : Stream α → (Unit → Stream α) → Stream α
  | .done, next => next ()
  | .yield value rest, next => .yield value fun _ => append (rest ()) next
  | .report error rest, next => .report error fun _ => append (rest ()) next

/-- The streams of all values, one after another. -/
def flatMap (f : α → Stream β) : Stream α → Stream β
  | .done => .done
  | .yield value rest => append (f value) fun _ => flatMap f (rest ())
  | .report error rest => .report error fun _ => flatMap f (rest ())

/-- Pairs a value with the next one of a stream, and goes on with the rest. The stream may report
errors first; if it ends, so does the result. -/
def pairNext (f : α → β → γ) (value : α) (next : Stream β → Stream γ) : Stream β → Stream γ
  | .done => .done
  | .yield other rest => .yield (f value other) fun _ => next (rest ())
  | .report error rest => .report error fun _ => pairNext f value next (rest ())

/-- Two streams in step, up to the end of the shorter one. Each time the first is asked before
the second. -/
def zipWith (f : α → β → γ) : Stream α → Stream β → Stream γ
  | .done, _ => .done
  | .yield value rest, other => pairNext f value (fun other => zipWith f (rest ()) other) other
  | .report error rest, other => .report error fun _ => zipWith f (rest ()) other

/-- Runs a stream to its end, behind what was told before, in reverse. -/
def drainOnto (reports : List EvalError) (values : List α) :
    Stream α → List EvalError × List α
  | .done => (reports.reverse, values.reverse)
  | .yield value rest => drainOnto reports (value :: values) (rest ())
  | .report error rest => drainOnto (error :: reports) values (rest ())

/-- The errors and the values of a stream, each in order. -/
def drain (s : Stream α) : List EvalError × List α := drainOnto [] [] s

/-- The first values of a stream. -/
def take : Nat → Stream α → List α
  | 0, _ => []
  | _, .done => []
  | count + 1, .yield value rest => value :: take count (rest ())
  | count + 1, .report _ rest => take (count + 1) (rest ())

end Stream
end Immediate
