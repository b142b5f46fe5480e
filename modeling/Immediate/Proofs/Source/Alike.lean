import Immediate.Proofs.Source.Grammar
/-! Reading in front of other text. Where two places have the same text before them up to the end or
a closing parenthesis, the same is read there: no literal, name, operator or bracket goes on with a
closing parenthesis. Where the places lie in their texts does not matter either. -/
namespace Immediate

open Immediate.Parser

namespace Cursor

/-- The same text stands at two places, in front of other text at each. -/
def Alike (back back' : List Char) (c d : Cursor) : Prop :=
  ∃ front, c.rest = front ++ back ∧ d.rest = front ++ back'

/-- A text closes what stands before it: there is none, or it starts with a closing parenthesis. -/
def Closes (back : List Char) : Prop := back = [] ∨ ∃ more, back = ')' :: more

variable {back back' : List Char} {c d : Cursor}

theorem Closes.takeWhile (closes : Closes back) {p : Char → Bool} (other : p ')' = false)
    (front : List Char) : (front ++ back).takeWhile p = front.takeWhile p := by
  induction front with
  | nil =>
    obtain rfl | ⟨more, rfl⟩ := closes
    · rfl
    · exact List.takeWhile_cons_of_neg (by rw [other]; exact Bool.false_ne_true)
  | cons x front ih => rw [List.cons_append, List.takeWhile_cons, List.takeWhile_cons, ih]

theorem Closes.starts (closes : Closes back) {expected front : List Char} (other : ')' ∉ expected)
    (starts : expected <+: front ++ back) : expected <+: front := by
  induction front generalizing expected with
  | nil =>
    obtain rfl | ⟨more, rfl⟩ := closes
    · exact starts
    · cases expected with
      | nil => exact List.nil_prefix
      | cons x expected =>
        obtain ⟨rfl, -⟩ := List.cons_prefix_cons.mp starts
        exact absurd List.mem_cons_self other
  | cons y front ih =>
    cases expected with
    | nil => exact List.nil_prefix
    | cons x expected =>
      obtain ⟨rfl, further⟩ := List.cons_prefix_cons.mp starts
      have others : ')' ∉ expected := fun member => other (List.mem_cons_of_mem _ member)
      exact List.cons_prefix_cons.mpr ⟨rfl, ih others further⟩

/-- What the characters between two places are not is left at the second one. -/
theorem Through.mem_rest {class_ : Char → Prop} {c later : Cursor}
    (through : c.Through class_ later) {x : Char} (other : ¬class_ x) (member : x ∈ c.rest) :
    x ∈ later.rest := by
  obtain ⟨count, rfl, taken⟩ := through
  rw [← List.take_append_drop count c.rest] at member
  exact (List.mem_append.mp member).resolve_left fun before => other (taken x before)

theorem Onward.mem_rest {c later : Cursor} (onward : c.Onward later) {x : Char}
    (member : x ∈ later.rest) : x ∈ c.rest := by
  obtain ⟨count, rfl⟩ := onward
  exact List.mem_of_mem_drop member

theorem rest_of_eat? {c later : Cursor} {x : Char} (eaten : c.eat? [x] = some later) :
    c.rest = x :: later.rest := by
  obtain ⟨⟨others, equal⟩, rfl⟩ := isPrefixOf_of_eat? eaten
  rw [rest_advance, ← equal]
  rfl

theorem mem_rest_of_eat? {c later : Cursor} {x : Char} {more : List Char}
    (eaten : c.skipBlanks.eat? (x :: more) = some later) : x ∈ c.rest := by
  have current := current?_of_eat? eaten
  exact c.onward_skipBlanks.mem_rest (List.mem_of_mem_head? current)

theorem next?_eq (c : Cursor) : c.next? = (c.advance 1).current? := by
  rw [next?, current?, rest_advance]
  cases c.rest with
  | nil => rfl
  | cons x rest => exact List.head?_eq_getElem?.symm

namespace Alike

theorem symm (alike : Alike back back' c d) : Alike back' back d c := by
  obtain ⟨front, here, there⟩ := alike
  exact ⟨front, there, here⟩

/-- What is left at the one place differs by a fixed length from what is left at the other. -/
theorem length (alike : Alike back back' c d) :
    c.rest.length + back'.length = d.rest.length + back.length := by
  obtain ⟨front, here, there⟩ := alike
  rw [here, there, List.length_append, List.length_append]
  omega

theorem advance {front : List Char} (here : c.rest = front ++ back)
    (there : d.rest = front ++ back') {count : Nat} (inside : count ≤ front.length) :
    Alike back back' (c.advance count) (d.advance count) := by
  refine ⟨front.drop count, ?_, ?_⟩
  · rw [rest_advance, here, List.drop_append_of_le_length inside]
  · rw [rest_advance, there, List.drop_append_of_le_length inside]

section Closed
variable (closes : Closes back) (closes' : Closes back') (alike : Alike back back' c d)

section Met
variable {x : Char} (met : c.current? = some x) (other : x ≠ ')')
include closes alike met other

/-- A character that does not close stands at both places. -/
theorem current : d.current? = some x := by
  obtain ⟨front, here, there⟩ := alike
  rw [current?, here] at met
  rw [current?, there]
  cases front with
  | nil =>
    obtain rfl | ⟨more, rfl⟩ := closes
    · cases met
    · exact absurd (Option.some.inj met).symm other
  | cons y front => exact met

theorem advance_current : Alike back back' (c.advance 1) (d.advance 1) := by
  obtain ⟨front, here, there⟩ := alike
  refine advance here there ?_
  cases front with
  | nil =>
    rw [current?, here] at met
    obtain rfl | ⟨more, rfl⟩ := closes
    · cases met
    · exact absurd (Option.some.inj met).symm other
  | cons y front => exact Nat.succ_pos _

end Met

include closes closes' alike

/-- What a character at both places tells is the same, if a closing parenthesis tells nothing. -/
theorem bind_current {β : Type} {f : Char → Option β} (other : f ')' = none) :
    d.current?.bind f = c.current?.bind f := by
  have silent {back : List Char} (closes : Closes back) : back.head?.bind f = none := by
    obtain rfl | ⟨more, rfl⟩ := closes
    · rfl
    · exact other
  obtain ⟨front, here, there⟩ := alike
  rw [current?, current?, here, there]
  cases front with
  | nil => rw [List.nil_append, List.nil_append, silent closes, silent closes']
  | cons x front => rfl

theorem any_current {p : Char → Bool} (other : p ')' = false) :
    d.current?.any p = c.current?.any p := by
  have told (o : Option Char) :
      o.any p = (o.bind fun x => if p x then some () else none).isSome := by
    cases o with
    | none => rfl
    | some x => cases held : p x <;> simp [held]
  rw [told, told, alike.bind_current closes closes' (by rw [other]; rfl)]

theorem any_next {p : Char → Bool} (other : p ')' = false) {x : Char}
    (current : c.current? = some x) (inside : x ≠ ')') : d.next?.any p = c.next?.any p := by
  rw [next?_eq, next?_eq]
  exact (alike.advance_current closes current inside).any_current closes closes' other

/-- The characters of a class without the closing parenthesis are the same. -/
theorem takeWhile {p : Char → Bool} (other : p ')' = false) :
    (d.takeWhile p).1 = (c.takeWhile p).1 ∧
      Alike back back' (c.takeWhile p).2 (d.takeWhile p).2 := by
  obtain ⟨front, here, there⟩ := alike
  have taken : c.rest.takeWhile p = front.takeWhile p := by rw [here, closes.takeWhile other]
  have taken' : d.rest.takeWhile p = front.takeWhile p := by rw [there, closes'.takeWhile other]
  refine ⟨taken'.trans taken.symm, ?_⟩
  change Alike back back' (c.advance (c.rest.takeWhile p).length)
    (d.advance (d.rest.takeWhile p).length)
  rw [taken, taken']
  exact advance here there (List.takeWhile_prefix p).length_le

theorem skipBlanks : Alike back back' c.skipBlanks d.skipBlanks :=
  (alike.takeWhile closes closes' rfl).2

omit closes' in
/-- What is met at the one place is met at the other, if no closing parenthesis is in it. -/
theorem eat {expected : List Char} (other : ')' ∉ expected) {m : Cursor}
    (eaten : c.eat? expected = some m) :
    ∃ n, d.eat? expected = some n ∧ Alike back back' m n := by
  obtain ⟨starts, rfl⟩ := isPrefixOf_of_eat? eaten
  obtain ⟨front, here, there⟩ := alike
  have before : expected <+: front := closes.starts other (here ▸ starts)
  have starts' : expected <+: d.rest := there ▸ before.trans (List.prefix_append _ _)
  exact ⟨d.advance expected.length, eat?_of_prefix starts', advance here there before.length_le⟩

omit closes in
theorem eat_none {expected : List Char} (other : ')' ∉ expected)
    (missing : c.eat? expected = none) : d.eat? expected = none := by
  cases eaten : d.eat? expected with
  | none => rfl
  | some n =>
    obtain ⟨m, impossible, -⟩ := alike.symm.eat closes' other eaten
    rw [missing] at impossible
    cases impossible

omit closes in
theorem current_ne {x : Char} (other : x ≠ ')') (missing : c.current? ≠ some x) :
    d.current? ≠ some x := fun met => missing (alike.symm.current closes' met other)

end Closed

/-! Where the first text ends, everything in it stands at the second place, closing or not. -/

section Whole
variable {tail : List Char} (alike : Alike [] tail c d)
include alike

theorem rest : d.rest = c.rest ++ tail := by
  obtain ⟨front, here, there⟩ := alike
  rw [there, here, List.append_nil]

theorem advance_inside {count : Nat} (inside : count ≤ c.rest.length) :
    Alike [] tail (c.advance count) (d.advance count) :=
  advance (List.append_nil _).symm alike.rest inside

theorem whole_current {x : Char} (current : c.current? = some x) : d.current? = some x := by
  rw [current?] at current
  rw [current?, alike.rest, List.head?_append, current]
  rfl

theorem advance_whole {x : Char} (current : c.current? = some x) :
    Alike [] tail (c.advance 1) (d.advance 1) :=
  alike.advance_inside (List.length_pos_iff.mpr (rest_ne_nil current))

theorem whole_eat {expected : List Char} {m : Cursor} (eaten : c.eat? expected = some m) :
    ∃ n, d.eat? expected = some n ∧ Alike [] tail m n := by
  obtain ⟨starts, rfl⟩ := isPrefixOf_of_eat? eaten
  have starts' : expected <+: d.rest := alike.rest ▸ starts.trans (List.prefix_append _ _)
  exact ⟨d.advance expected.length, eat?_of_prefix starts', alike.advance_inside starts.length_le⟩

/-- A character that is not met where some other one stands is not met at the second place. -/
theorem whole_eat_none {x : Char} (left : c.rest ≠ []) (missing : c.eat? [x] = none) :
    d.eat? [x] = none := by
  refine eat?_eq_none fun current => ?_
  rw [current?, alike.rest] at current
  cases here : c.rest with
  | nil => exact left here
  | cons y rest =>
    rw [here] at current
    have met : c.current? = some x := by
      rw [current?, here]
      exact current
    rw [eat?_eq_some met] at missing
    cases missing

end Whole

end Alike
end Cursor
end Immediate
