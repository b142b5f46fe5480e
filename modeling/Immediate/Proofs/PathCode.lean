import Immediate.Proofs.Machine
/-! The code of a path. When every index and bound in it leaves one operand, the code reads step by
step: each written step takes what the steps before it gave, whatever its own code does, and comes at
the moments behind theirs. -/
namespace Immediate

namespace Accessor

/-- The codes of a written step. -/
def codes : Accessor → List Code
  | .index code | .optionalIndex code => [code]
  | .range first last => [first, last]
  | .allContents | .entryKey | .entryValue => []

/-- Every code of the step leaves one operand. -/
def Balanced (a : Accessor) : Prop := ∀ code ∈ a.codes, code.depth? = some 1

/-- What a step reads from an operand. -/
def readFrom (context : Context) (target : Operand Slot) : Accessor → Except EvalError (Operand Slot)
  | .allContents => Operand.fanOut (fun _ => Instruction.allContents.apply context) [target]
  | .index code => do
    Operand.fanOut (fun _ => Instruction.index.apply context) [target, ← code.execute context]
  | .optionalIndex code => do
    Operand.fanOut (fun _ => Instruction.optionalIndex.apply context) [target, ← code.execute context]
  | .range first last => do
    let low ← first.execute context
    let high ← last.execute (context.later first.length)
    Operand.fanOut (fun _ => Instruction.rangeIndex.apply context) [target, low, high]
  | .entryKey => Operand.fanOut (fun _ => (Instruction.call .key 1).apply context) [target]
  | .entryValue => Operand.fanOut (fun _ => (Instruction.call .value 1).apply context) [target]

/-- What steps read from an operand, one after another. -/
def readAlong (context : Context) (target : Operand Slot) :
    List Accessor → Except EvalError (Operand Slot)
  | [] => .ok target
  | a :: rest => do readAlong (context.later a.code.length) (← a.readFrom context target) rest

theorem readAlong_append (context : Context) (target : Operand Slot) (front rest : List Accessor) :
    readAlong context target (front ++ rest) = readAlong context target front >>= fun middle =>
      readAlong (context.later (front.flatMap code).length) middle rest := by
  induction front generalizing context target with
  | nil => exact (congrArg (readAlong · target rest) context.later_zero).symm
  | cons a front ih =>
    rw [List.cons_append, readAlong, readAlong, bind_assoc]
    refine bind_congr fun middle => ?_
    rw [ih, Context.later_later, List.flatMap_cons, List.length_append]

theorem runOn_code {a : Accessor} (balanced : a.Balanced) (context : Context)
    (target : Operand Slot) :
    Code.runOn context [target] a.code = (fun result => [result]) <$> a.readFrom context target := by
  cases a with
  | allContents => exact Code.runOn_all _ rfl
  | entryKey => exact Code.runOn_all _ rfl
  | entryValue => exact Code.runOn_all _ rfl
  | index inner =>
    have one : inner.depth? = some 1 := balanced inner List.mem_cons_self
    rw [Accessor.code, Code.runOn_append, Code.runOn_of_balanced one, readFrom]
    cases inner.execute context with
    | error e => rfl
    | ok index => exact Code.runOn_all _ rfl
  | optionalIndex inner =>
    have one : inner.depth? = some 1 := balanced inner List.mem_cons_self
    rw [Accessor.code, Code.runOn_append, Code.runOn_of_balanced one, readFrom]
    cases inner.execute context with
    | error e => rfl
    | ok index => exact Code.runOn_all _ rfl
  | range first last =>
    have oneFirst : first.depth? = some 1 := balanced first List.mem_cons_self
    have oneLast : last.depth? = some 1 := balanced last (List.mem_cons_of_mem _ List.mem_cons_self)
    rw [Accessor.code, Code.runOn_append, Code.runOn_append, Code.runOn_of_balanced oneFirst, readFrom]
    cases first.execute context with
    | error e => rfl
    | ok low =>
      change Code.runOn (context.later first.length) [low, target] last >>= _ = _
      rw [Code.runOn_of_balanced oneLast]
      cases last.execute (context.later first.length) with
      | error e => rfl
      | ok high => exact Code.runOn_all _ rfl

end Accessor

/-! ### Moments behind a path -/

namespace World

/-- The world behind the code of a path. -/
def behind (world : World) (p : Path) : World := world.later p.code.length

theorem behind_append (world : World) (base : VariableId) (front rest : List Accessor) :
    world.behind ⟨base, front ++ rest⟩ =
      (world.behind ⟨base, front⟩).later (rest.flatMap Accessor.code).length := by
  simp only [behind, later_later, Path.code, List.flatMap_append, List.length_cons, List.length_append,
    Nat.add_right_comm]

theorem behind_eq (world : World) (base : VariableId) (accessors : List Accessor) :
    world.behind ⟨base, accessors⟩ =
      (world.behind ⟨base, []⟩).later (accessors.flatMap Accessor.code).length :=
  behind_append world base [] accessors

theorem behind_concat (world : World) (base : VariableId) (front : List Accessor) (a : Accessor) :
    world.behind ⟨base, front ++ [a]⟩ = (world.behind ⟨base, front⟩).later a.code.length := by
  rw [behind_append, List.flatMap_singleton]

end World

namespace Path

/-- Every code in the path leaves one operand, as in a path that was compiled. -/
def Balanced (p : Path) : Prop := ∀ a ∈ p.accessors, a.Balanced

theorem runOn_accessors {accessors : List Accessor} (balanced : ∀ a ∈ accessors, a.Balanced)
    (context : Context) (target : Operand Slot) :
    Code.runOn context [target] (accessors.flatMap Accessor.code) =
      (fun result => [result]) <$> Accessor.readAlong context target accessors := by
  induction accessors generalizing context target with
  | nil => rfl
  | cons a rest ih =>
    rw [List.flatMap_cons, Code.runOn_append, Accessor.runOn_code (balanced a List.mem_cons_self),
      Accessor.readAlong]
    cases a.readFrom context target with
    | error e => rfl
    | ok result => exact ih (fun b member => balanced b (List.mem_cons_of_mem _ member)) _ result

/-- Reading a path reads step by step from what its variable holds. -/
theorem execute_code {p : Path} (balanced : p.Balanced) (context : Context) :
    p.code.execute context = (do
      let slot ← context.load p.base
      Accessor.readAlong (context.later 1) (.single slot) p.accessors) := by
  change (Code.runOn context [] (.variable p.base :: p.accessors.flatMap Accessor.code) >>= _) = _
  rw [Code.runOn_cons]
  have loaded : (Instruction.variable p.base).step (context.within 0) [] =
      (fun slot => [.single slot]) <$> context.load p.base := by
    change ((Operand.single <$> context.load p.base) >>= _) = _
    cases context.load p.base <;> rfl
  rw [loaded]
  cases context.load p.base with
  | error e => rfl
  | ok slot =>
    change Code.runOn (context.later 1) [.single slot] (p.accessors.flatMap Accessor.code) >>= _ = _
    rw [runOn_accessors balanced]
    change _ = Accessor.readAlong (context.later 1) (.single slot) p.accessors
    cases Accessor.readAlong (context.later 1) (.single slot) p.accessors <;> rfl

end Path
end Immediate
