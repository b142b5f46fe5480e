import Immediate.EvalError
/-! What an evaluation may consult besides its code: the variables, and the host around it. A host
may answer the same question differently each time it is asked. So the parts of a run are numbered,
and every question is put at a moment of its own, which the numbers of the parts at work tell. -/
namespace Immediate

/-- The services of a host, as they are at one moment. Each may fail with an error of any kind. -/
structure Host where
  /-- The entities a selector matches. -/
  select : String → Except EvalError (List EntityId)
  /-- Where an entity is. -/
  positionOf : EntityId → Except EvalError Position
  /-- Where the evaluation happens. -/
  origin : Position
  /-- A number from zero to just below one. -/
  randomUnit : Except EvalError Binary64

/-- A host without services: everything asked of it fails, and the evaluation happens at the
origin. -/
def Host.detached : Host where
  select selector := .error (.unknownSelector selector)
  positionOf e := .error (.unknownPosition e)
  origin := .origin
  randomUnit := .error .noRandomness

/-- A moment of a run: the number of the part that is at work, then that of the part at work within
it, and so on. -/
abbrev Moment := List Nat

/-- The world around a run: the host as it is at each moment. -/
def World := Moment → Host

namespace World

/-- A host that is always the same. -/
instance : Coe Host World := ⟨fun host _ => host⟩

/-- A world in which the host never has services. -/
def detached : World := Host.detached

/-- The host at the moment itself. -/
def now (world : World) : Host := world []

/-- The world as one part of the run meets it. -/
def within (part : Nat) (world : World) : World := fun moment => world (part :: moment)

/-- The world behind a number of parts: the first one that follows is counted as zero. -/
def later (parts : Nat) (world : World) : World
  | [] => world []
  | part :: moment => world ((part + parts) :: moment)

@[simp] theorem later_zero (world : World) : world.later 0 = world := by
  funext moment
  cases moment <;> rfl

@[simp] theorem later_later (world : World) (parts more : Nat) :
    (world.later parts).later more = world.later (parts + more) := by
  funext moment
  cases moment with
  | nil => rfl
  | cons part moment => simp only [later, Nat.add_comm parts more, Nat.add_assoc]

end World

/-- What the variables hold, and the world. -/
structure Context where
  holding : VariableId → Option Slot
  world : World

namespace Context

/-- The context without variables and services, in which constants are computed ahead. -/
def empty : Context := ⟨fun _ => none, .detached⟩

/-- What a variable holds. -/
def load (context : Context) (id : VariableId) : Except EvalError Slot :=
  match context.holding id with
  | some slot => .ok slot
  | none => .error (.notFound id)

/-- The context as one part of a run meets it. -/
def within (part : Nat) (context : Context) : Context :=
  { context with world := context.world.within part }

/-- The context behind a number of parts. -/
def later (parts : Nat) (context : Context) : Context :=
  { context with world := context.world.later parts }

@[simp] theorem later_zero (context : Context) : context.later 0 = context := by
  simp only [later, World.later_zero]

@[simp] theorem later_later (context : Context) (parts more : Nat) :
    (context.later parts).later more = context.later (parts + more) := by
  simp only [later, World.later_later]

end Context

end Immediate
