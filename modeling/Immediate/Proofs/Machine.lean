import Immediate.Eval.Machine
import Immediate.Proofs.Outcomes
/-! Balanced code does the same on whatever stack it runs: it never reaches below its own operands, and
on any stack it puts the one operand on top that it gives on its own at these moments. -/
namespace Immediate

open Outcome

/-- An instruction that finds its operands leaves alone what lies below them. -/
theorem Instruction.step_append (context : Context) {i : Instruction} {stack : Stack}
    (enough : i.consumes ≤ stack.length) (below : Stack) :
    i.step context (stack ++ below) = (· ++ below) <$> i.step context stack := by
  have more : i.consumes ≤ (stack ++ below).length := by
    rw [List.length_append]
    omega
  unfold step
  rw [if_pos more, if_pos enough, List.take_append_of_le_length enough,
    List.drop_append_of_le_length enough]
  cases i.combine context (stack.take i.consumes).reverse <;> rfl

/-- An instruction takes the operands on top and leaves what it makes of them. -/
theorem Instruction.step_operands (context : Context) {i : Instruction} {operands : Stack}
    (all : i.consumes = operands.length) (below : Stack) :
    i.step context (operands ++ below) = (· :: below) <$> i.combine context operands.reverse := by
  have enough : i.consumes ≤ (operands ++ below).length := by
    rw [List.length_append]
    omega
  rw [step, if_pos enough, all, List.take_left, List.drop_left]
  cases i.combine context operands.reverse <;> rfl

theorem Instruction.length_step {context : Context} {i : Instruction} {stack stack' : Stack}
    (enough : i.consumes ≤ stack.length) (run : i.step context stack = .ok stack') :
    stack'.length = stack.length - i.consumes + i.produces := by
  unfold step at run
  rw [if_pos enough] at run
  obtain ⟨result, -, equal⟩ := bind_eq_ok.mp run
  cases pure_eq_ok.mp equal
  simp only [List.length_cons, List.length_drop, produces]

namespace Code

theorem runOn_cons (context : Context) (stack : Stack) (i : Instruction) (rest : Code) :
    runOn context stack (i :: rest) =
      i.step (context.within 0) stack >>= fun stack => runOn (context.later 1) stack rest :=
  rfl

theorem runOn_append (context : Context) (stack : Stack) (code more : Code) :
    runOn context stack (code ++ more) =
      runOn context stack code >>= fun stack => runOn (context.later code.length) stack more := by
  induction code generalizing context stack with
  | nil => exact (congrArg (runOn · stack more) context.later_zero).symm
  | cons i rest ih =>
    rw [List.cons_append, runOn_cons, runOn_cons, bind_assoc]
    refine bind_congr fun middle => ?_
    rw [ih, Context.later_later, List.length_cons, Nat.add_comm]

/-- Two draws of one run are at different moments, and may give different numbers. -/
example (first second : Binary64) :
    let world : World := fun moment =>
      { Host.detached with randomUnit := .ok (if moment = [0, 0] then first else second) }
    runOn ⟨fun _ => none, world⟩ [] [.call .random 0, .call .random 0] =
      .ok [.single (some (.double second)), .single (some (.double first))] := rfl

/-- An instruction that takes all operands there are leaves what it makes of them. -/
theorem runOn_all (context : Context) {stack : Stack} {i : Instruction}
    (all : i.consumes = stack.length) :
    runOn context stack [i] =
      (fun result => [result]) <$> i.combine (context.within 0) stack.reverse := by
  have taken := Instruction.step_operands (context.within 0) all []
  rw [List.append_nil] at taken
  rw [runOn_cons, taken]
  cases i.combine (context.within 0) stack.reverse <;> rfl

theorem depthFrom_cons {depth depth' : Nat} {i : Instruction} {rest : Code}
    (balanced : depthFrom depth (i :: rest) = some depth') :
    i.consumes ≤ depth ∧ depthFrom (depth - i.consumes + i.produces) rest = some depth' := by
  unfold depthFrom at balanced
  split at balanced
  · rename_i enough
    exact ⟨enough, balanced⟩
  · cases balanced

theorem runOn_below {context : Context} {stack : Stack} {code : Code} {depth : Nat}
    (balanced : depthFrom stack.length code = some depth) (below : Stack) :
    runOn context (stack ++ below) code = (· ++ below) <$> runOn context stack code := by
  induction code generalizing context stack with
  | nil => rfl
  | cons i rest ih =>
    obtain ⟨enough, others⟩ := depthFrom_cons balanced
    rw [runOn_cons, runOn_cons, Instruction.step_append _ enough]
    cases run : i.step (context.within 0) stack with
    | error e => rfl
    | ok stack' =>
      rw [← Instruction.length_step enough run] at others
      exact ih others

theorem length_runOn {context : Context} {stack stack' : Stack} {code : Code} {depth : Nat}
    (balanced : depthFrom stack.length code = some depth)
    (run : runOn context stack code = .ok stack') : stack'.length = depth := by
  induction code generalizing context stack with
  | nil =>
    cases run
    cases balanced
    rfl
  | cons i rest ih =>
    obtain ⟨enough, others⟩ := depthFrom_cons balanced
    rw [runOn_cons] at run
    obtain ⟨middle, first, last⟩ := bind_eq_ok.mp run
    rw [← Instruction.length_step enough first] at others
    exact ih others last

/-- Code that leaves one operand puts it on top of whatever the stack holds. -/
theorem runOn_of_balanced {code : Code} (balanced : code.depth? = some 1) (context : Context)
    (stack : Stack) :
    runOn context stack code = (· :: stack) <$> execute context code := by
  have empty : depthFrom ([] : Stack).length code = some 1 := balanced
  have below : runOn context stack code = (· ++ stack) <$> runOn context [] code :=
    runOn_below empty stack
  rw [below]
  unfold execute
  change _ = (· :: stack) <$> (runOn context [] code >>= _)
  cases run : runOn context [] code with
  | error e => rfl
  | ok left =>
    have one := length_runOn empty run
    obtain ⟨result, rfl⟩ := List.length_eq_one_iff.mp one
    rfl

end Code
end Immediate
