/-! Blank characters, and cutting text at them. The class is the Unicode property
White_Space, so a no-break space or a line separator ends a word just as a space does. -/
namespace Immediate.Text

/-- The characters of the Unicode property White_Space. -/
def blanks : List Char :=
  ['\u0009', '\u000A', '\u000B', '\u000C', '\u000D', '\u0020', '\u0085', '\u00A0', '\u1680',
   '\u2000', '\u2001', '\u2002', '\u2003', '\u2004', '\u2005', '\u2006', '\u2007', '\u2008',
   '\u2009', '\u200A', '\u2028', '\u2029', '\u202F', '\u205F', '\u3000']

/-- Whether a character is blank. -/
def isBlank (c : Char) : Bool := blanks.contains c

/-- The characters without the blank ones at either end. -/
def trimChars (cs : List Char) : List Char :=
  ((cs.dropWhile isBlank).reverse.dropWhile isBlank).reverse

/-- The text without the blanks at either end. -/
def trim (s : String) : String := String.ofList (trimChars s.toList)

/-- The part before the first character of a class and the part after it, when there is one. -/
def cutAt (p : Char → Bool) (cs : List Char) : Option (List Char × List Char) :=
  match cs.dropWhile (!p ·) with
  | [] => none
  | _ :: after => some (cs.takeWhile (!p ·), after)

/-- The pieces between the occurrences of a character; there is always at least one. -/
def splitAt (sep : Char) : List Char → List (List Char)
  | [] => [[]]
  | c :: rest =>
    if c = sep then [] :: splitAt sep rest
    else match splitAt sep rest with
      | piece :: pieces => (c :: piece) :: pieces
      | [] => [[c]]

/-- The lines of a text: each ends before a line feed, and a carriage return just before that
is not part of it. A line feed at the very end starts no further line. -/
def lines (cs : List Char) : List (List Char) :=
  let pieces := splitAt '\n' cs
  let kept := if pieces.getLast? = some [] then pieces.dropLast else pieces
  let ended := pieces.length - 1
  kept.zipIdx.map fun (line, row) =>
    if row < ended ∧ line.getLast? = some '\r' then line.dropLast else line

end Immediate.Text
