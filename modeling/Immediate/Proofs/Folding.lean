import Immediate.Eval.Expression
import Immediate.Proofs.Machine
/-! Computing constants ahead changes no result. Only loading a variable and the functions that ask the
host consult anything besides their operands, so code without them gives the same everywhere, and a
result of it may stand in its place. Streams are never put in place of code, so no report is lost. -/
namespace Immediate

theorem Builtin.apply_eq_of_asksHost {b : Builtin} (alone : b.asksHost = false)
    (host other : Host) : b.apply other = b.apply host := by
  cases b <;> first | rfl | cases alone

namespace Instruction

/-- Two contexts hold the same in the variable that an instruction loads, and it asks nothing else. -/
def SameIn (context other : Context) (i : Instruction) : Prop :=
  i.asksContext = true → ∃ id, i = .variable id ∧ other.holding id = context.holding id

theorem sameIn_of_asksContext {i : Instruction} (alone : i.asksContext = false)
    (context other : Context) : i.SameIn context other :=
  fun asks => by rw [alone] at asks; cases asks

variable {i : Instruction} {context other : Context} (same : i.SameIn context other)
include same

theorem apply_congr : i.apply other = i.apply context := by
  funext args
  cases i with
  | «variable» id =>
    obtain ⟨_, own, held⟩ := same rfl
    cases own
    have loaded : other.load id = context.load id := by
      unfold Context.load
      rw [held]
    exact congrArg (Operand.single <$> ·) loaded
  | call builtin argc =>
    have alone : builtin.asksHost = false := eq_false_of_ne_true fun asks => by
      obtain ⟨id, impossible, -⟩ := same asks
      cases impossible
    exact congrFun (Builtin.apply_eq_of_asksHost alone context.world.now other.world.now) args
  | _ => rfl

theorem step_congr (stack : Stack) : i.step other stack = i.step context stack := by
  have combined (operands : List (Operand Slot)) :
      i.combine other operands = i.combine context operands := by
    have each : (fun n => i.apply (other.within n)) = fun n => i.apply (context.within n) :=
      funext fun _ => apply_congr same
    unfold combine
    split
    · rfl
    · rw [each]
  unfold step
  rw [combined]

end Instruction

namespace Code

theorem runOn_congr {code : Code} {context other : Context}
    (same : ∀ i ∈ code, i.SameIn context other) (stack : Stack) :
    runOn other stack code = runOn context stack code := by
  induction code generalizing context other stack with
  | nil => rfl
  | cons i rest ih =>
    have first : i.SameIn (context.within 0) (other.within 0) := same i List.mem_cons_self
    have others : ∀ j ∈ rest, j.SameIn (context.later 1) (other.later 1) :=
      fun j member => same j (List.mem_cons_of_mem _ member)
    rw [runOn_cons, runOn_cons, Instruction.step_congr first]
    exact bind_congr (ih others)

/-- Code whose instructions find the same in two contexts does the same in them, whoever is the host. -/
theorem execute_congr {code : Code} {context other : Context}
    (same : ∀ i ∈ code, i.SameIn context other) : code.execute other = code.execute context := by
  unfold execute
  rw [runOn_congr same]

/-- Code that consults nothing does the same wherever it runs. -/
theorem execute_eq_of_asksContext {code : Code} (alone : code.any (·.asksContext) = false)
    (context other : Context) : code.execute other = code.execute context :=
  execute_congr fun i member => Instruction.sameIn_of_asksContext
    (eq_false_of_ne_true (List.any_eq_false.mp alone i member)) context other

/-- That code consults the context for other variables only: it does not load this one, and does not ask
the host. -/
def Ignores (code : Code) (id : VariableId) : Prop :=
  ∀ i ∈ code, i.asksContext = true → ∃ other ≠ id, i = .variable other

/-- Code that ignores a variable does the same whatever that holds and whoever is the host. -/
theorem execute_eq_of_ignores {code : Code} {id : VariableId} (ignores : code.Ignores id)
    {context other : Context} (same : ∀ loaded ≠ id, other.holding loaded = context.holding loaded) :
    code.execute other = code.execute context := by
  refine execute_congr fun i member asks => ?_
  obtain ⟨loaded, apart, rfl⟩ := ignores i member asks
  exact ⟨loaded, rfl, same loaded apart⟩

/-- Folding either leaves code as it is, or puts in its place the one value that code which consults
nothing gives. -/
theorem fold_cases (code : Code) : code.fold = code ∨ ∃ slot,
    code.fold = [.constant slot] ∧ code.any (·.asksContext) = false ∧
      code.execute .empty = .ok (.single slot) := by
  unfold fold
  split
  · exact .inl rfl
  · rename_i constant
    split
    · rename_i slot run
      refine .inr ⟨slot, rfl, ?_, run⟩
      exact eq_false_of_ne_true fun asks => constant (.inr asks)
    · exact .inl rfl

theorem execute_fold (context : Context) (code : Code) :
    code.fold.execute context = code.execute context := by
  rcases code.fold_cases with same | ⟨slot, constant, alone, run⟩
  · rw [same]
  · rw [constant, execute_eq_of_asksContext alone .empty context, run]
    rfl

theorem fold_of_asksContext {code : Code} (asks : code.any (·.asksContext) = true) :
    code.fold = code := by
  rcases code.fold_cases with same | ⟨_, _, alone, _⟩
  · exact same
  · rw [alone] at asks
    cases asks

theorem fold_of_single {code : Code} {slot : Slot} (several : 1 < code.length)
    (alone : code.any (·.asksContext) = false) (run : code.execute .empty = .ok (.single slot)) :
    code.fold = [.constant slot] := by
  have constant : ¬(code.length ≤ 1 ∨ code.any (·.asksContext) = true) := by
    simp only [alone, Bool.false_eq_true, or_false]
    omega
  unfold fold
  rw [if_neg constant, run]

end Code

namespace Expression

/-- Taking the value of a lone constant without a run makes no difference. -/
theorem evaluate_eq_execute (context : Context) (e : Expression) :
    e.evaluate context = e.code.execute context := by
  obtain ⟨code⟩ := e
  unfold evaluate
  split
  · rename_i slot constant
    unfold constant? at constant
    split at constant
    · rename_i only
      cases constant
      change code = _ at only
      rw [only]
      rfl
    · cases constant
  · rfl

/-- Folded code evaluates to what the code itself gives: the same value, error, or stream with the
same values and reports in the same order. Code that asks for variables or the host is run as it
stands, so this holds of hosts whose answers change as well. All other code gives the same in any two
contexts, and several instructions that give a single value are replaced by this value. -/
theorem evaluate_folded (context : Context) (code : Code) :
    (folded code).evaluate context = code.execute context ∧
      (code.any (·.asksContext) = true → (folded code).code = code) ∧
      (code.any (·.asksContext) = false →
        (∀ other : Context, code.execute other = code.execute context) ∧
          ∀ slot, 1 < code.length → code.execute context = .ok (.single slot) →
            (folded code).code = [.constant slot]) := by
  refine ⟨?_, Code.fold_of_asksContext, fun alone => ⟨fun other => ?_, fun slot several run => ?_⟩⟩
  · rw [evaluate_eq_execute]
    exact Code.execute_fold context code
  · exact Code.execute_eq_of_asksContext alone context other
  · rw [← Code.execute_eq_of_asksContext alone context .empty] at run
    exact Code.fold_of_single several alone run

/-- A sum of constants is computed ahead; one with a variable in it is kept. -/
theorem evaluate_folded_sum :
    let number (n : Nat) : Instruction := .constant (some (.integer .int n))
    let constant : Code := [number 2, number 3, .binary .add]
    let mixed : Code := [number 2, .variable ⟨"a", "b"⟩, .binary .add]
    let context : Context := ⟨fun _ => some (some (.integer .int 4)), .detached⟩
    (folded constant).code = [number 5] ∧
      constant.execute context = .ok (.single (some (.integer .int 5))) ∧
      (folded mixed).code = mixed ∧
      (folded mixed).evaluate context = .ok (.single (some (.integer .int 6))) := by
  intro number constant mixed context
  have given : constant.execute .empty = .ok (.single (some (.integer .int 5))) := rfl
  have sum : mixed.execute context = .ok (.single (some (.integer .int 6))) := rfl
  obtain ⟨-, -, everywhere⟩ := evaluate_folded .empty constant
  obtain ⟨same, computed⟩ := everywhere rfl
  obtain ⟨evaluated, kept, -⟩ := evaluate_folded context mixed
  exact ⟨computed _ (by decide) given, (same context).trans given, kept rfl, evaluated.trans sum⟩

end Expression
end Immediate
