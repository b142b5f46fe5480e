import Immediate.Eval.Machine
import Immediate.Source.Expression
/-! Expressions ready to be evaluated: code, with constant parts computed ahead if the options ask
for it. -/
namespace Immediate

/-- Code to be evaluated. -/
structure Expression where
  code : Code

namespace Expression

/-- The value of an expression whose code is one constant. -/
def constant? (e : Expression) : Option Slot :=
  match e.code with
  | [.constant slot] => some slot
  | _ => none

/-- The expression of code that is computed ahead where it is constant. -/
def folded (code : Code) : Expression := ⟨code.fold⟩

/-- The expression a text spells. -/
def compile (o : CompileOptions) (s : String) : Except CompileError Expression := do
  let code ← parse o s
  return if o.fold then folded code else ⟨code⟩

/-- What an expression evaluates to. A constant is its own value, without a run. -/
def evaluate (context : Context) (e : Expression) : Except EvalError (Operand Slot) :=
  match e.constant? with
  | some slot => .ok (.single slot)
  | none => e.code.execute context

end Expression
end Immediate
