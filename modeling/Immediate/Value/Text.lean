import Immediate.Value.Basic
import Immediate.Text.Quoted
/-! The written forms of values: the canonical one, which the expression reader reads back, and
the plain one, which a cast to text gives. -/
namespace Immediate.Value

/-- The letter after an integer that tells its width. -/
def widthSuffix : Width → String
  | .byte => "B"
  | .short => "S"
  | .int => ""
  | .long => "L"

mutual

/-- The canonical text of a value. -/
def text : Value → String
  | .integer width n => toString n.toInt ++ widthSuffix width
  | .float x => x.text ++ "F"
  | .double x => x.text
  | .string s => Text.quote s
  | .entity e => e.text
  | .position p => p.text
  | .list _ items => "\x7b" ++ ", ".intercalate (itemTexts items) ++ "\x7d"
  | .iterator _ items => "iter(\x7b" ++ ", ".intercalate (itemTexts items) ++ "\x7d)"
  | .map _ _ pairs => "\x7b" ++ ", ".intercalate (pairTexts pairs) ++ "\x7d"
  | .entry _ _ key value => "\x7b" ++ slotText key ++ " : " ++ slotText value ++ "\x7d"

/-- The canonical text of a slot. -/
def slotText : Option Value → String
  | none => "null"
  | some v => v.text

/-- The canonical texts of a sequence's slots. -/
def itemTexts : List (Option Value) → List String
  | [] => []
  | item :: rest => slotText item :: itemTexts rest

/-- The canonical texts of a map's pairs, each like an entry. -/
def pairTexts : List (Value × Option Value) → List String
  | [] => []
  | (key, value) :: rest =>
    ("\x7b" ++ key.text ++ " : " ++ slotText value ++ "\x7d") :: pairTexts rest

end

/-- The plain text of a value: numbers without the letter of their kind, text without quotes. -/
def plainText : Value → String
  | .integer _ n => toString n.toInt
  | .float x => x.text
  | .double x => x.text
  | .string s => s
  | v => v.text

end Immediate.Value
