import Immediate.Proofs.Source.Moving
import Immediate.Script.Command
/-! What a scan for a symbol goes over without parting it. Inside quotes this is everything but the
closing quote, inside brackets every character that is neither, and at the top level every character
that no symbol starts with, and two angle brackets that are a shift. What opens and closes again
leaves the scan nested as it was. -/
namespace Immediate.Command

/-- Outside of quotes. -/
def Nesting.outside (depth : Nat) : Nesting := ⟨depth, none, false⟩

/-- Inside quotes. -/
def Nesting.quoted (depth : Nat) (quote : Char) : Nesting := ⟨depth, some quote, false⟩

/-- Inside quotes and behind a backslash. -/
def Nesting.escaping (depth : Nat) (quote : Char) : Nesting := ⟨depth, some quote, true⟩

/-- The quotes and brackets. -/
def delimiters : List Char := ['"', '\'', '(', '[', '\x7b', ')', ']', '\x7d']

/-- The brackets that belong together. -/
def brackets : List (Char × Char) := [('(', ')'), ('[', ']'), ('\x7b', '\x7d')]

/-- The characters that symbols consist of. -/
def signs : List Char := ['<', '>', '=', '!']

/-- Whether a character is neither a quote nor a bracket. -/
def isFlat (x : Char) : Bool := !delimiters.contains x

/-- Whether a character is neither a quote nor a bracket and no part of a symbol. -/
def isPlain (x : Char) : Bool := isFlat x && !signs.contains x

theorem isFlat_of_class {class_ : Char → Bool} {x : Char} (held : class_ x = true)
    (others : delimiters.all (!class_ ·) = true) : isFlat x = true := by
  by_cases member : x ∈ delimiters
  · have missing := List.all_eq_true.mp others x member
    simp [held] at missing
  · simp [isFlat, member]

theorem isPlain_of_class {class_ : Char → Bool} {x : Char} (held : class_ x = true)
    (others : (delimiters ++ signs).all (!class_ ·) = true) : isPlain x = true := by
  rw [List.all_append, Bool.and_eq_true] at others
  by_cases member : x ∈ signs
  · have missing := List.all_eq_true.mp others.2 x member
    simp [held] at missing
  · simp [isPlain, isFlat_of_class held others.1, member]

theorem isPlain_of_isBlank {x : Char} (blank : Text.isBlank x = true) : isPlain x = true :=
  isPlain_of_class blank rfl

theorem isFlat_of_isPlain {x : Char} (plain : isPlain x = true) : isFlat x = true :=
  (Bool.and_eq_true_iff.mp plain).1

/-- What is looked for starts with a symbol's character, and is no part of a shift. -/
structure Sparing {α : Type} (symbol? : Option Char → List Char → Option (α × Nat)) : Prop where
  other (before : Option Char) {x : Char} (rest : List Char) (noSign : signs.contains x = false) :
    symbol? before (x :: rest) = none
  shift (before : Option Char) {x : Char} (rest : List Char) (angle : x = '<' ∨ x = '>') :
    symbol? before (x :: x :: rest) = none
  behind {x : Char} (rest : List Char) (angle : x = '<' ∨ x = '>') :
    symbol? (some x) (x :: rest) = none

theorem sparing_assignmentSign? : Sparing assignmentSign? where
  other before x rest noSign := by
    rw [assignmentSign?, if_neg]
    rintro ⟨⟩
    cases noSign
  shift before x rest angle := by rcases angle with rfl | rfl <;> rfl
  behind rest angle := by rcases angle with rfl | rfl <;> rfl

theorem sparing_comparison? : Sparing comparison? where
  other before x rest noSign := by
    have others : x ≠ '<' ∧ x ≠ '>' ∧ x ≠ '=' ∧ x ≠ '!' := by simpa [signs] using noSign
    unfold comparison?
    split
    · rfl
    · grind
  shift before x rest angle := by
    unfold comparison?
    split
    · rfl
    · rcases angle with rfl | rfl <;> rfl
  behind rest angle := by
    have behind := angle.imp (congrArg some) (congrArg some)
    unfold comparison?
    exact if_pos behind

section Crosses

variable {α : Type} {symbol? : Option Char → List Char → Option (α × Nat)}
variable {n middle n' : Nesting} {text more : List Char} {x : Char} {d : Nat}

/-- A scan goes over a text without parting it and is nested differently behind it. -/
def Crosses (symbol? : Option Char → List Char → Option (α × Nat)) (n : Nesting) (text : List Char)
    (n' : Nesting) : Prop :=
  ∀ before rest, partAt symbol? n before (text ++ rest) =
    (partAt symbol? n' (text.getLast?.or before) rest).map fun (front, found) =>
      (text ++ front, found)

theorem crosses_nil : Crosses symbol? n [] n := by
  intro before rest
  simp

theorem Crosses.append (first : Crosses symbol? n text middle)
    (second : Crosses symbol? middle more n') : Crosses symbol? n (text ++ more) n' := by
  intro before rest
  rw [List.append_assoc, first, second, Option.map_map]
  simp [Function.comp_def, List.getLast?_append, Option.or_assoc]

/-- The step of a scan: a character at which nothing is found changes the nesting alone. -/
theorem crosses_char
    (passed : n.isTop x = true → ∀ before rest, symbol? before (x :: rest) = none) :
    Crosses symbol? n [x] (n.after x) := by
  intro before rest
  have missing : (if n.isTop x then symbol? before (x :: rest) else none) = none := by
    split
    · exact passed ‹_› before rest
    · rfl
  simp [partAt, missing]

theorem crosses_of_all (each : ∀ x ∈ text, Crosses symbol? n [x] n) : Crosses symbol? n text n := by
  induction text with
  | nil => exact crosses_nil
  | cons x rest ih =>
    have first := each x List.mem_cons_self
    exact first.append (ih fun y member => each y (List.mem_cons_of_mem x member))

/-! ### Characters -/

theorem after_of_isFlat (flat : isFlat x = true) :
    (Nesting.outside d).after x = .outside d := by
  have other : x ∉ delimiters := by simpa [isFlat] using flat
  simp only [delimiters, List.mem_cons, List.not_mem_nil, or_false, not_or] at other
  simp [Nesting.after, Nesting.outside, other]

/-- Inside brackets nothing is found. -/
theorem crosses_nested (flat : isFlat x = true) :
    Crosses symbol? (.outside (d + 1)) [x] (.outside (d + 1)) := by
  have crossed : Crosses symbol? (.outside (d + 1)) [x] ((Nesting.outside (d + 1)).after x) :=
    crosses_char (by simp [Nesting.isTop, Nesting.outside])
  rwa [after_of_isFlat flat] at crossed

theorem crosses_plain (sparing : Sparing symbol?) (plain : isPlain x = true) :
    Crosses symbol? (.outside d) [x] (.outside d) := by
  have crossed : Crosses symbol? (.outside d) [x] ((Nesting.outside d).after x) :=
    crosses_char fun _ before rest => by
      have noSign := (Bool.and_eq_true_iff.mp plain).2
      exact sparing.other before rest (by simpa using noSign)
  rwa [after_of_isFlat (isFlat_of_isPlain plain)] at crossed

/-- The brackets of a shift are no symbols, at any depth. -/
theorem crosses_shift (sparing : Sparing symbol?) (angle : x = '<' ∨ x = '>') :
    Crosses symbol? (.outside d) [x, x] (.outside d) := by
  have flat : isFlat x = true := by rcases angle with rfl | rfl <;> rfl
  intro before rest
  simp [partAt, sparing.shift before rest angle, sparing.behind rest angle, after_of_isFlat flat,
    Function.comp_def]

/-- An opening bracket nests one deeper. -/
theorem crosses_opening {y : Char} (pair : (x, y) ∈ brackets) :
    Crosses symbol? (.outside d) [x] (.outside (d + 1)) := by
  simp only [brackets, List.mem_cons, Prod.mk.injEq, List.not_mem_nil, or_false] at pair
  rcases pair with ⟨rfl, -⟩ | ⟨rfl, -⟩ | ⟨rfl, -⟩
  all_goals exact crosses_char (by simp [Nesting.isTop])

/-- A closing bracket undoes an opening one. -/
theorem crosses_closing {y : Char} (pair : (x, y) ∈ brackets) :
    Crosses symbol? (.outside (d + 1)) [y] (.outside d) := by
  simp only [brackets, List.mem_cons, Prod.mk.injEq, List.not_mem_nil, or_false] at pair
  rcases pair with ⟨-, rfl⟩ | ⟨-, rfl⟩ | ⟨-, rfl⟩
  all_goals exact crosses_char (by simp [Nesting.isTop])

/-- A quote opens quotes. -/
theorem crosses_quote (quote : x = '"' ∨ x = '\'') :
    Crosses symbol? (.outside d) [x] (.quoted d x) := by
  rcases quote with rfl | rfl
  all_goals exact crosses_char (by simp [Nesting.isTop])

/-- The same quote closes them. -/
theorem crosses_unquote (quote : x = '"' ∨ x = '\'') :
    Crosses symbol? (.quoted d x) [x] (.outside d) := by
  rcases quote with rfl | rfl
  all_goals exact crosses_char (by simp [Nesting.isTop])

/-- Any other character inside quotes is text. -/
theorem crosses_quoted {quote : Char} (other : x ≠ quote) (noEscape : x ≠ '\\') :
    Crosses symbol? (.quoted d quote) [x] (.quoted d quote) := by
  have crossed : Crosses symbol? (.quoted d quote) [x] ((Nesting.quoted d quote).after x) :=
    crosses_char (by simp [Nesting.isTop, Nesting.quoted])
  have same : (Nesting.quoted d quote).after x = .quoted d quote := by
    simp [Nesting.after, Nesting.quoted, other, noEscape]
  rwa [same] at crossed

/-- A backslash takes the character behind it along, be it a quote or a backslash. -/
theorem crosses_escape {quote : Char} :
    Crosses symbol? (.quoted d quote) ['\\', x] (.quoted d quote) := by
  have backslash : Crosses symbol? (.quoted d quote) ['\\'] (.escaping d quote) :=
    crosses_char (by simp [Nesting.isTop, Nesting.quoted])
  have escaped : Crosses symbol? (.escaping d quote) [x] (.quoted d quote) :=
    crosses_char (by simp [Nesting.isTop, Nesting.escaping])
  exact backslash.append escaped

end Crosses

/-! ### Places -/

section Crossing

variable {α : Type} {symbol? : Option Char → List Char → Option (α × Nat)}
variable {n middle n' : Nesting} {c m c' : Cursor} {d : Nat}

/-- A scan goes over what stands between two places. -/
def Crossing (symbol? : Option Char → List Char → Option (α × Nat)) (n : Nesting) (c : Cursor)
    (n' : Nesting) (c' : Cursor) : Prop :=
  ∃ text, c.rest = text ++ c'.rest ∧ Crosses symbol? n text n'

theorem Crossing.refl (c : Cursor) : Crossing symbol? n c n c := ⟨[], rfl, crosses_nil⟩

theorem Crossing.trans (first : Crossing symbol? n c middle m)
    (second : Crossing symbol? middle m n' c') : Crossing symbol? n c n' c' := by
  obtain ⟨text, before, crossed⟩ := first
  obtain ⟨more, behind, further⟩ := second
  exact ⟨text ++ more, by rw [before, behind, List.append_assoc], crossed.append further⟩

theorem crossing_advance {text : List Char} (starts : text <+: c.rest)
    (crossed : Crosses symbol? n text n') : Crossing symbol? n c n' (c.advance text.length) := by
  obtain ⟨rest, equal⟩ := starts
  refine ⟨text, ?_, crossed⟩
  rw [Cursor.rest_advance, ← equal, List.drop_left]

theorem crossing_of_eat? {text : List Char} (eaten : c.eat? text = some c')
    (crossed : Crosses symbol? n text n') : Crossing symbol? n c n' c' := by
  obtain ⟨starts, rfl⟩ := Cursor.isPrefixOf_of_eat? eaten
  exact crossing_advance starts crossed

theorem crossing_of_current? {x : Char} (current : c.current? = some x)
    (crossed : Crosses symbol? n [x] n') : Crossing symbol? n c n' (c.advance 1) :=
  crossing_of_eat? (Cursor.eat?_eq_some current) crossed

theorem crossing_of_through {class_ : Char → Prop} (through : c.Through class_ c')
    (each : ∀ x, class_ x → Crosses symbol? n [x] n) : Crossing symbol? n c n c' := by
  obtain ⟨count, rfl, inside⟩ := through
  refine ⟨c.rest.take count, (List.take_append_drop count c.rest).symm, ?_⟩
  exact crosses_of_all fun x member => each x (inside x member)

theorem crossing_skipBlanks (sparing : Sparing symbol?) (c : Cursor) :
    Crossing symbol? (.outside d) c (.outside d) c.skipBlanks :=
  crossing_of_through (c.through_skipBlanks fun _ => id) fun _ blank =>
    crosses_plain sparing (isPlain_of_isBlank blank)

/-- Characters behind blanks. -/
theorem crossing_of_blanks_eat? (sparing : Sparing symbol?) {text : List Char}
    (eaten : c.skipBlanks.eat? text = some c') (crossed : Crosses symbol? (.outside d) text n') :
    Crossing symbol? (.outside d) c n' c' :=
  (crossing_skipBlanks sparing c).trans (crossing_of_eat? eaten crossed)

end Crossing
end Immediate.Command
