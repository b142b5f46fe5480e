import Immediate.Code.Operator
import Immediate.Text.Blank
/-! Commands, as the lines of a script write them. A path and its value, or the two sides of a
comparison, are parted by the first symbol outside brackets and quotes. -/
namespace Immediate

/-- A command. -/
inductive Command where
  | add (id ty : String)
  | set (path expression : String)
  | get (path : String)
  | remove (path : String)
  | eval (expression : String)
  | list
  | compare (left : String) (op : CompareOp) (right : String)
  | encode (id : String)
  deriving DecidableEq, Repr

/-- Why a line is no command. -/
inductive Misuse where
  /-- The command is not written in its form. -/
  | usage (form : String)
  | unknown (word : String)
  deriving DecidableEq, Repr

/-- The text of a misuse. -/
def Misuse.message : Misuse → String
  | .usage form => s!"usage: {form}"
  | .unknown word => s!"unknown command '{word}'"

namespace Command

/-- How far inside brackets and quotes a place is. -/
structure Nesting where
  depth : Nat
  quote : Option Char
  escaped : Bool

/-- The nesting after a character. Inside quotes only the closing quote counts, unless a backslash
stands before it. A closing bracket without an opening one counts for nothing. -/
def Nesting.after (n : Nesting) (c : Char) : Nesting :=
  match n.quote with
  | some opening =>
    if n.escaped then { n with escaped := false }
    else if c = '\\' then { n with escaped := true }
    else if c = opening then { n with quote := none }
    else n
  | none =>
    if c = '"' ∨ c = '\'' then { n with quote := some c }
    else if c = '(' ∨ c = '[' ∨ c = '\x7b' then { n with depth := n.depth + 1 }
    else if c = ')' ∨ c = ']' ∨ c = '\x7d' then { n with depth := n.depth - 1 }
    else n

/-- Whether a character is text at the top level: outside of quotes and brackets, and none of
these itself. -/
def Nesting.isTop (n : Nesting) (c : Char) : Bool :=
  n.quote.isNone && n.depth = 0 && !("\"'([\x7b)]\x7d".toList.contains c)

/-- Parts text at the first place at the top level where a symbol stands. The symbol is recognised
by the character before it and the text from it on, and comes with its length. -/
def partAt {α : Type} (symbol? : Option Char → List Char → Option (α × Nat)) :
    Nesting → Option Char → List Char → Option (List Char × α × List Char)
  | _, _, [] => none
  | n, before, c :: rest =>
    match if n.isTop c then symbol? before (c :: rest) else none with
    | some (symbol, length) => some ([], symbol, (c :: rest).drop length)
    | none =>
      (partAt symbol? (n.after c) (some c) rest).map fun (front, found) => (c :: front, found)

/-- The sign of an assignment. -/
def assignmentSign? (_ : Option Char) (text : List Char) : Option (Unit × Nat) :=
  if text.head? = some '=' then some ((), 1) else none

/-- The symbol of a comparison. The angle brackets of shifts are none. -/
def comparison? (before : Option Char) (text : List Char) : Option (CompareOp × Nat) :=
  if before = some '<' ∨ before = some '>' then none
  else match text with
    | '<' :: '<' :: _ | '>' :: '>' :: _ => none
    | '=' :: '=' :: _ => some (.eq, 2)
    | '!' :: '=' :: _ => some (.ne, 2)
    | '<' :: '=' :: _ => some (.le, 2)
    | '>' :: '=' :: _ => some (.ge, 2)
    | '<' :: _ => some (.lt, 1)
    | '>' :: _ => some (.gt, 1)
    | _ => none

/-- The text of characters without the blanks around them. -/
def trimmed (cs : List Char) : String := String.ofList (Text.trimChars cs)

/-- The text behind a command that needs one. -/
def argument (form : String) (rest : List Char) : Except Misuse String :=
  if rest.isEmpty then .error (.usage form) else .ok (String.ofList rest)

/-- The command that a word and the text behind it spell. -/
def ofWord (word : String) (rest : List Char) : Except Misuse Command :=
  match word with
  | "add" =>
    match Text.cutAt Text.isBlank rest with
    | some (id, ty) => .ok (.add (String.ofList id) (trimmed ty))
    | none => .error (.usage "add <id> <type>")
  | "set" =>
    match partAt assignmentSign? ⟨0, none, false⟩ none rest with
    | some (path, _, expression) => .ok (.set (trimmed path) (trimmed expression))
    | none => .error (.usage "set <path> = <expr>")
  | "get" => .get <$> argument "get <path>" rest
  | "remove" => .remove <$> argument "remove <path>" rest
  | "eval" => .eval <$> argument "eval <expr>" rest
  | "encode" => .encode <$> argument "encode <id>" rest
  | "compare" =>
    match partAt comparison? ⟨0, none, false⟩ none rest with
    | some (left, op, right) => .ok (.compare (trimmed left) op (trimmed right))
    | none => .error (.usage "compare <expr> <op> <expr>")
  | word => if word = "list" ∧ rest = [] then .ok .list else .error (.unknown word)

/-- The command that a line spells. A blank line and one that starts with `#` spell none. -/
def parse (line : List Char) : Except Misuse (Option Command) :=
  match Text.trimChars line with
  | [] => .ok none
  | '#' :: _ => .ok none
  | cs =>
    match Text.cutAt Text.isBlank cs with
    | some (word, rest) => some <$> ofWord (String.ofList word) (Text.trimChars rest)
    | none => some <$> ofWord (String.ofList cs) []

end Command
end Immediate
