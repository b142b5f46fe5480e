import Immediate.Codec.Encode
import Immediate.Editing.Change
import Immediate.Script.Command
import Immediate.Source.PathText
/-! Running scripts. The commands of a script work on one store, line by line, up to the first line
that fails. What a command prints comes before the warnings of the stream elements it dropped. -/
namespace Immediate

/-- Why a command failed. -/
inductive ScriptError where
  | misuse (e : Misuse)
  | compile (e : CompileError)
  | eval (e : EvalError)
  | id (e : IdError)
  | codec (e : Codec.CodecError)

/-- The text of a failure. -/
def ScriptError.message : ScriptError → String
  | .misuse e => e.message
  | .compile e => e.message
  | .eval e => e.message
  | .id e => e.message
  | .codec e => e.message

/-- A failure and the number of its line, counted from one. -/
structure LineError where
  line : Nat
  error : ScriptError

/-- The text of a line's failure. -/
def LineError.message (e : LineError) : String := s!"line {e.line}: {e.error.message}"

/-- Work that a script does. -/
abbrev ScriptWork := Work ScriptError

namespace ScriptWork

variable {α ε : Type}

/-- Takes a result over, its error as one of a script. -/
def take (wrap : ε → ScriptError) (result : Except ε α) : ScriptWork α :=
  match result with
  | .ok a => return a
  | .error e => throw (wrap e)

/-- Does work on values. -/
def edit (work : Edit α) : ScriptWork α := ExceptT.adapt .eval work

/-- The store as it is now. -/
def store : ScriptWork Store := edit Edit.store

/-- Compiles an expression and runs it to the end of its stream. -/
def evaluate (o : CompileOptions) (world : World) (source : String) : ScriptWork Evaluated := do
  let expression ← take .compile (Expression.compile o source)
  edit (Edit.evaluate world expression)

/-- Compares two expressions. Both are compiled before either is evaluated. -/
def compare (o : CompileOptions) (world : World) (left : String) (op : CompareOp) (right : String) :
    ScriptWork Comparison := do
  let left ← take .compile (Expression.compile o left)
  let right ← take .compile (Expression.compile o right)
  edit (Edit.compare world left op right)

end ScriptWork

/-- The written form of a comparison's outcome: the result of a single pair, or how many of the
pairs held. -/
def Comparison.text (c : Comparison) : String :=
  match c.results with
  | [held] => toString held
  | results => s!"{c.matched} of {results.length} held"

/-- The variables of a store, a line for each, if there are any. -/
def Store.listing? (s : Store) : Option String :=
  let line (id : VariableId) : Option String :=
    (s.find? id).map fun t => id.text ++ " = " ++ t.text
  match s.ids.filterMap line with
  | [] => none
  | lines => some ("\n".intercalate lines)

/-- Executes a command; the result is what it prints. -/
def Command.execute (o : CompileOptions) (world : World) : Command → ScriptWork (Option String)
  | .add id ty => do
    let id ← ScriptWork.take .id (VariableId.ofText id o.space)
    let ty ← ScriptWork.take .compile (TypeName.parse o.registry ty)
    ScriptWork.edit do Edit.setStore (← (← Edit.store).declare id ty)
    return none
  | .set path expression => do
    let values ← ScriptWork.evaluate o (world.within 0) expression
    let path ← ScriptWork.take .compile (Path.parse o path)
    let changed ← ScriptWork.edit (path.set (world.within 1) values)
    return some s!"{changed} changed"
  | .get path => do
    let path ← ScriptWork.take .compile (Path.parse o path)
    return some (← ScriptWork.edit (path.read world)).text
  | .remove path => do
    let path ← ScriptWork.take .compile (Path.parse o path)
    let removed ← ScriptWork.edit (path.remove world)
    return some s!"{removed} removed"
  | .eval expression => return some (← ScriptWork.evaluate o world expression).text
  | .list => return (← ScriptWork.store).listing?
  | .compare left op right => return some (← ScriptWork.compare o world left op right).text
  | .encode id => do
    let id ← ScriptWork.take .id (VariableId.ofText id o.space)
    let t ← ScriptWork.take .eval ((← ScriptWork.store).peek id)
    return some (Codec.hexadecimal (← ScriptWork.take .codec (Codec.encode t)))

/-- Executes a line. -/
def Command.executeLine (o : CompileOptions) (world : World) (line : List Char) :
    ScriptWork (Option String) := do
  match ← ScriptWork.take .misuse (Command.parse line) with
  | some command => command.execute o world
  | none => return none

/-- What came of a script: the texts it printed, the failure that ended it, and the store it
left. -/
structure ScriptOutcome where
  output : List String
  failure : Option LineError
  store : Store

namespace Script

/-- Executes lines in a store; the first of them has a number. Each line is a part of the run. -/
def runFrom (o : CompileOptions) (world : World) : Store → Nat → List (List Char) → ScriptOutcome
  | store, _, [] => ⟨[], none, store⟩
  | store, number, line :: rest =>
    match (Command.executeLine o (world.within number) line).run.run (.of store) with
    | (.error error, w) => ⟨[], some ⟨number, error⟩, w.store⟩
    | (.ok printed, w) =>
      let warnings := w.reports.map fun e => "warning: skipped element: " ++ e.message
      let outcome := runFrom o world w.store (number + 1) rest
      { outcome with output := printed.toList ++ warnings ++ outcome.output }

/-- Runs a script in an empty store. -/
def run (o : CompileOptions) (world : World) (source : String) : ScriptOutcome :=
  runFrom o world .empty 1 (Text.lines source.toList)

end Script
end Immediate
