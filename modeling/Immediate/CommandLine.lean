import Immediate.Script.Run
/-! The command line: evaluating an expression, or running a script. -/
namespace Immediate.CommandLine

/-- What a run of the program leaves: what it printed, its messages, and its exit code. -/
structure Output where
  stdout : String
  stderr : String
  exit : Nat

/-- A text as a line. -/
def line (s : String) : String := s ++ "\n"

/-- The version of the program. -/
def version : String := "0.1.0"

/-- Why a file that does not exist cannot be read. -/
def missingFile : String := "No such file or directory (os error 2)"

/-- The description of the program and its commands. -/
def usage : String :=
  String.join <| List.map line [
    "Immediate values evaluator",
    "",
    "Usage: imvc <command> [options]",
    "",
    "Commands:",
    "  eval <expr>          Evaluate an expression and print the result",
    "  run <script>         Run a script of variable commands",
    "  help                 Show this help message",
    "  version              Show version information",
    "",
    "Eval options:",
    "  --code               Print the compiled instructions instead",
    "  --no-fold            Do not pre-evaluate constant expressions",
    "  --namespace=<ns>     Namespace for unqualified variables (default: global)",
    "",
    "Script commands (one per line, '#' starts a comment):",
    "  add <id> <type>              Declare a variable",
    "  set <path> = <expr>          Assign through a path",
    "  get <path>                   Read through a path",
    "  remove <path>                Remove a variable or slots",
    "  eval <expr>                  Evaluate an expression",
    "  list                         Show every variable",
    "  compare <expr> <op> <expr>   Compare with == != < <= > >=",
    "  encode <id>                  Show a variable's binary encoding"]

/-- Success with something printed. -/
def printing (s : String) : Output := ⟨s, "", 0⟩

/-- Failure with a message. -/
def failing (message : String) : Output := ⟨"", line message, 1⟩

/-- The arguments of an evaluation. -/
structure EvalRequest where
  options : CompileOptions
  showCode : Bool
  source : Option String

/-- Takes one more argument of an evaluation into account. The first that is no option is the
expression, and further ones are ignored. -/
def EvalRequest.take (r : EvalRequest) (arg : String) : EvalRequest :=
  let option := "--namespace=".toList
  if arg = "--no-fold" then { r with options := { r.options with fold := false } }
  else if arg = "--code" then { r with showCode := true }
  else if option.isPrefixOf arg.toList then
    { r with options := { r.options with space := String.ofList (arg.toList.drop option.length) } }
  else { r with source := r.source.or (some arg) }

/-- Evaluates an expression with no variables around it, or prints its code. -/
def evaluate (world : World) (r : EvalRequest) : Output :=
  match r.source with
  | none => failing "Usage: imvc eval <expr> [--code] [--no-fold] [--namespace=<ns>]"
  | some source =>
    match Expression.compile r.options source with
    | .error e => failing ("error: " ++ e.message)
    | .ok expression =>
      if r.showCode then printing (line expression.code.listing)
      else match expression.evaluate (Store.empty.context world) with
        | .error e => failing ("error: " ++ e.message)
        | .ok operand => printing (line operand.drain.2.text)

/-- Runs a script that has been read from a file. -/
def runScript (world : World) (file : String) (contents : Except String String) : Output :=
  match contents with
  | .error message => failing s!"error: cannot read '{file}': {message}"
  | .ok source =>
    let outcome := Script.run {} world source
    let printed := String.join (outcome.output.map line)
    match outcome.failure with
    | none => printing printed
    | some e => ⟨printed, line ("error: " ++ file ++ ":" ++ e.message), 1⟩

/-- The file that the arguments ask to run. -/
def scriptFile? : List String → Option String
  | "run" :: file :: _ => some file
  | _ => none

/-- Answers the arguments. The contents of the script file, or why it cannot be read, are given
where `scriptFile?` names one. -/
def answer (world : World) (args : List String) (contents : Except String String) : Output :=
  match args with
  | [] => printing usage
  | command :: rest =>
    match command with
    | "eval" => evaluate world (rest.foldl EvalRequest.take ⟨{}, false, none⟩)
    | "run" =>
      match scriptFile? args with
      | some file => runScript world file contents
      | none => failing "Usage: imvc run <script>"
    | "help" | "--help" | "-h" => printing usage
    | "version" | "--version" | "-V" => printing (line ("imvc " ++ version))
    | command => ⟨usage, line s!"Unknown command: {command}" ++ line "", 1⟩

end Immediate.CommandLine
