/-! Names of stored variables: a namespace and a path in it, written with a colon between them.
Both are made of ASCII letters, digits, `_`, `.` and `$`, and neither starts with a digit or a
point. The path `null` is taken by the literal. -/
namespace Immediate

/-- Whether a character may stand in a name. -/
def isIdChar (c : Char) : Bool := c.isAlphanum || c = '_' || c = '.' || c = '$'

/-- Whether a character may start a name. -/
def isIdStart (c : Char) : Bool := isIdChar c && !c.isDigit && c ≠ '.'

/-- Why a text is no variable id. -/
inductive IdError where
  | empty
  | invalidStart (c : Char)
  | invalidChar (c : Char)
  | nullPath
  deriving DecidableEq, Repr

/-- The text of an error. -/
def IdError.message : IdError → String
  | .empty => "empty variable id"
  | .invalidStart c => s!"variable id cannot start with '{c}'"
  | .invalidChar c => s!"invalid character '{c}' in variable id"
  | .nullPath => "'null' is not a valid variable path"

/-- The name of a stored variable. -/
structure VariableId where
  space : String
  path : String
  deriving DecidableEq, Repr

namespace VariableId

/-- Refuses what cannot be a namespace or a path. -/
def checkName (cs : List Char) : Except IdError Unit :=
  match cs with
  | [] => .error .empty
  | c :: rest =>
    if !isIdStart c then .error (.invalidStart c)
    else match rest.find? (!isIdChar ·) with
      | some bad => .error (.invalidChar bad)
      | none => .ok ()

/-- The id of a namespace and a path, when both can be names. -/
def ofNames (space path : List Char) : Except IdError VariableId := do
  checkName space
  checkName path
  if path = "null".toList then .error .nullPath
  return ⟨String.ofList space, String.ofList path⟩

/-- The id a text spells; without a colon it names a path in the default namespace. -/
def ofText (s defaultSpace : String) : Except IdError VariableId :=
  match s.toList.dropWhile (· ≠ ':') with
  | [] => ofNames defaultSpace.toList s.toList
  | _ :: path => ofNames (s.toList.takeWhile (· ≠ ':')) path

/-- The written form of an id. -/
def text (id : VariableId) : String := id.space ++ ":" ++ id.path

/-- Whether an id comes before another or is it: by namespace first, then by path. -/
def le (a b : VariableId) : Bool := a.space < b.space || (a.space = b.space && !(b.path < a.path))

/-- The ids in order. -/
def sort (ids : List VariableId) : List VariableId := ids.mergeSort le

end VariableId
end Immediate
