import Immediate.Source.CompileError
import Immediate.Text.Blank
/-! A place in source text: what stands after it, and how many bytes stand before it. A cursor is
moved by characters, or by a number of bytes where text of a known size stands at it. What is read
from a cursor on tells every stretch of text that was moved over or cut out. -/
namespace Immediate

/-- The number of bytes that characters take up. -/
def Text.byteCount (cs : List Char) : Nat := cs.foldl (· + ·.utf8Size) 0

/-- A place in source text. -/
structure Cursor where
  offset : Nat
  rest : List Char

namespace Cursor

/-- The start of a text. -/
def start (s : String) : Cursor := ⟨0, s.toList⟩

/-- The character at the cursor. -/
def current? (c : Cursor) : Option Char := c.rest.head?

/-- The character after the one at the cursor. -/
def next? (c : Cursor) : Option Char := c.rest[1]?

/-- Whether the character at the cursor is of a class. -/
def isAt (c : Cursor) (p : Char → Bool) : Bool := c.current?.any p

/-- The place a number of characters further on. -/
def advance (c : Cursor) (count : Nat) : Cursor :=
  ⟨(c.rest.take count).foldl (· + ·.utf8Size) c.offset, c.rest.drop count⟩

/-- The place a number of bytes behind an offset that some characters start at, but not behind
their end. Bytes that end inside a character leave the offset inside it. -/
def behindBytes : Nat → List Char → Nat → Cursor
  | offset, rest, 0 => ⟨offset, rest⟩
  | offset, [], _ + 1 => ⟨offset, []⟩
  | offset, x :: rest, count + 1 =>
    if x.utf8Size ≤ count + 1 then
      behindBytes (offset + x.utf8Size) rest (count + 1 - x.utf8Size)
    else ⟨offset + (count + 1), x :: rest⟩

/-- The place a number of bytes further on. -/
def advanceBytes (c : Cursor) (count : Nat) : Cursor := behindBytes c.offset c.rest count

/-- The characters of a class at the cursor, and the place after them. -/
def takeWhile (c : Cursor) (p : Char → Bool) : List Char × Cursor :=
  let taken := c.rest.takeWhile p
  (taken, c.advance taken.length)

/-- The place after the blanks at the cursor. -/
def skipBlanks (c : Cursor) : Cursor := (c.takeWhile Text.isBlank).2

/-- The place after some characters, if they stand at the cursor. -/
def eat? (c : Cursor) (expected : List Char) : Option Cursor :=
  if expected.isPrefixOf c.rest then some (c.advanceBytes (Text.byteCount expected)) else none

/-- The characters between an earlier place and the cursor. -/
def since (c start : Cursor) : List Char := start.rest.take (start.rest.length - c.rest.length)

end Cursor

/-- A stretch of source text, from one place to another. -/
structure Span where
  start : Cursor
  stop : Cursor

/-- A computation that reads source text from a cursor on. Beside what it gives or fails with, it
tells the stretches of text that it moves over or cuts out, also those of places ahead of the
cursor that it only tries. -/
structure Parser (α : Type) where
  run : Cursor → Except CompileError (α × Cursor)
  spans : Cursor → List Span

namespace Parser

variable {α β : Type}

/-- Reads one thing after another. -/
def bind (p : Parser α) (next : α → Parser β) : Parser β where
  run c :=
    match p.run c with
    | .ok (a, later) => (next a).run later
    | .error e => .error e
  spans c :=
    p.spans c ++
      match p.run c with
      | .ok (a, later) => (next a).spans later
      | .error _ => []

instance : Monad Parser where
  pure a := ⟨fun c => .ok (a, c), fun _ => []⟩
  bind := bind

instance : MonadStateOf Cursor Parser where
  get := ⟨fun c => .ok (c, c), fun _ => []⟩
  set later := ⟨fun _ => .ok (⟨⟩, later), fun c => [⟨c, later⟩]⟩
  modifyGet f := ⟨fun c => .ok (f c), fun c => [⟨c, (f c).2⟩]⟩

/-- Fails with a fault at a place. -/
def failAt (fault : Fault) (position : Nat) : Parser α :=
  ⟨fun _ => .error ⟨fault, position⟩, fun _ => []⟩

/-- Fails with a fault at the cursor. -/
def fail (fault : Fault) : Parser α := do failAt fault (← get).offset

/-- The characters between an earlier place and the cursor. -/
def since (start : Cursor) : Parser (List Char) :=
  ⟨fun c => .ok (c.since start, c), fun c => [⟨start, c⟩]⟩

/-- A place ahead of the cursor, which stays where it is. -/
def ahead (f : Cursor → Cursor) : Parser Cursor := ⟨fun c => .ok (f c, c), fun c => [⟨c, f c⟩]⟩

/-- Reads ahead of the cursor, which stays where it is, and gives the place behind as well. -/
def probe (p : Parser α) : Parser (α × Cursor) where
  run c :=
    match p.run c with
    | .ok result => .ok (result, c)
    | .error e => .error e
  spans := p.spans

/-- Reads, or else does something about the error, back where reading began. -/
def recover (p : Parser α) (handle : CompileError → Parser α) : Parser α where
  run c :=
    match p.run c with
    | .ok result => .ok result
    | .error e => (handle e).run c
  spans c :=
    p.spans c ++
      match p.run c with
      | .ok _ => []
      | .error e => (handle e).spans c

/-- Moves past blanks. -/
def skipBlanks : Parser Unit := modify Cursor.skipBlanks

/-- Moves past characters if they stand at the cursor, and tells whether they did. -/
def eat (expected : List Char) : Parser Bool := do
  match (← get).eat? expected with
  | some after =>
    set after
    return true
  | none => return false

/-- Moves past the characters of a class and returns them. -/
def takeWhile (p : Char → Bool) : Parser (List Char) := do
  let (taken, after) := (← get).takeWhile p
  set after
  return taken

/-- Moves past blanks and a character, which must be there. -/
def expect (c : Char) (what : Expected) : Parser Unit := do
  skipBlanks
  unless ← eat [c] do fail (.expected what)

/-- Requires that nothing but blanks is left. -/
def finish : Parser Unit := do
  skipBlanks
  match (← get).current? with
  | none => return
  | some c => fail (.unexpectedChar c)

/-- Reads something behind which nothing but blanks is left. -/
def whole (p : Parser α) : Parser α := do
  let result ← p
  finish
  return result

/-- Reads a whole text. -/
def readAll (p : Parser α) (s : String) : Except CompileError α := do
  let (result, _) ← p.whole.run (.start s)
  return result

end Parser
end Immediate
