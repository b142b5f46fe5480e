import Immediate.Proofs.Rendering.Literals
import Immediate.Proofs.Rendering.Rebuilding
import Immediate.Proofs.Source.Completeness
/-! Canonical text read back. What a value is shown as stands for the value's code wherever nothing
but a comma, a closing bracket or a colon follows, by recursion on the value: each form is read as
its parts are. A composed value is what this code yields, so compiled text gives the value again. -/
namespace Immediate

open Immediate.Parser Outcome

namespace Value

theorem itemTexts_eq (items : List Slot) : itemTexts items = items.map slotText := by
  induction items with
  | nil => rfl
  | cons item rest ih => rw [itemTexts, ih, List.map_cons]

/-- The text of a pair, which is that of an entry. -/
def pairText (pair : Value × Slot) : String :=
  "\x7b" ++ pair.1.text ++ " : " ++ slotText pair.2 ++ "\x7d"

theorem pairTexts_eq (pairs : List (Value × Slot)) : pairTexts pairs = pairs.map pairText := by
  induction pairs with
  | nil => rfl
  | cons pair rest ih => rw [pairTexts, ih, List.map_cons, pairText]

end Value

/-- A character that is no blank is taken where it stands. -/
theorem Cursor.exists_eat? {c : Cursor} {x : Char} {tail : List Char} (here : c.rest = x :: tail)
    (solid : Text.isBlank x = false) : ∃ m, c.skipBlanks.eat? [x] = some m ∧ m.rest = tail := by
  have current := current?_of_rest here
  rw [skipBlanks_of_current current solid]
  exact ⟨c.advance 1, eat?_eq_some current, rest_behind here⟩

/-- The same behind the blanks, where a colon may stand. -/
theorem Ended.behind {p : Char → Bool} {tail : List Char} (ended : Ended tail)
    (others : [',', '\x7d', ')', ':'].all (!p ·) = true) :
    (tail.dropWhile Text.isBlank).head?.any p = false := by
  have each := List.all_eq_true.mp others
  cases ended with
  | nothing => rfl
  | mark rest closing =>
    have solid : [',', '\x7d', ')'].all (!Text.isBlank ·) = true := rfl
    have first := List.all_eq_true.mp solid _ closing
    rw [List.dropWhile_cons_of_neg (by simpa using first)]
    simpa using each _ (List.mem_append_left [':'] closing)
  | colon rest =>
    have other : p ':' = false := by simpa using each ':' (by simp)
    exact other

namespace Expression

variable {o : CompileOptions} {c m : Cursor} {code : Code} {text tail : List Char}

/-- Whether a character may be the first one of a value, after which it is no blank and closes
nothing. -/
def opensValue (x : Char) : Bool := x = '-' || startsValue x

theorem not_opensValue_of_isBlank {x : Char} (blank : Text.isBlank x = true) :
    opensValue x = false := by
  have each : Text.blanks.all (!opensValue ·) = true := rfl
  simpa using List.all_eq_true.mp each x (List.contains_iff_mem.mp blank)

/-- A text stands for code: wherever it may end, it is read as a value into the code. -/
structure StandsFor (o : CompileOptions) (text : List Char) (code : Code) : Prop where
  starts : text.head?.any opensValue = true
  reads {c : Cursor} {tail : List Char} (ended : Ended tail) (here : c.rest = text ++ tail) :
    ∃ m, Reads o c (.bare code) m ∧ m.rest = tail

namespace StandsFor

theorem current (stands : StandsFor o text code) (here : c.rest = text ++ tail) :
    ∃ x, c.current? = some x ∧ opensValue x = true := by
  have starts := stands.starts
  cases text with
  | nil => cases starts
  | cons x rest => exact ⟨x, Cursor.current?_of_rest here, starts⟩

theorem skipBlanks (stands : StandsFor o text code) (here : c.rest = text ++ tail) :
    c.skipBlanks = c := by
  obtain ⟨x, current, opens⟩ := stands.current here
  refine Cursor.skipBlanks_of_current current ?_
  cases blank : Text.isBlank x with
  | false => rfl
  | true => exact opens.symm.trans (not_opensValue_of_isBlank blank)

/-- A closing bracket does not stand where a value does. -/
theorem eat?_eq_none (stands : StandsFor o text code) (here : c.rest = text ++ tail) {x : Char}
    (other : opensValue x = false) : c.skipBlanks.eat? [x] = none := by
  rw [stands.skipBlanks here]
  obtain ⟨y, current, opens⟩ := stands.current here
  refine Cursor.eat?_eq_none fun equal => ?_
  cases current.symm.trans equal
  cases other.symm.trans opens

/-- A value alone is a term: no index and no operator follows it. -/
theorem term (stands : StandsFor o text code) (blanks : List Char)
    (blank : blanks.all Text.isBlank = true) (ended : Ended tail)
    (here : c.rest = blanks ++ (text ++ tail)) :
    ∃ m, Reads o c (.term false code) m ∧ m.rest = tail.dropWhile Text.isBlank := by
  have begin : c.skipBlanks.rest = text ++ tail := by
    have solid : (text ++ tail).dropWhile Text.isBlank = text ++ tail := by
      have moved := stands.skipBlanks (c := ⟨0, text ++ tail⟩) rfl
      rw [← Cursor.rest_skipBlanks ⟨0, text ++ tail⟩, moved]
    rw [Cursor.rest_skipBlanks, here,
      List.dropWhile_append_of_pos (List.all_eq_true.mp blank), solid]
  obtain ⟨m, bare, ends⟩ := stands.reads ended begin
  -- Indices and operators are looked for behind the blanks that may follow the value.
  have behind {x : Char} (other : [',', '\x7d', ')', ':'].all (fun y => !decide (y = x)) = true) :
      m.skipBlanks.current? ≠ some x := by
    have none := ended.behind (p := (· = x)) other
    rw [← ends, ← Cursor.rest_skipBlanks] at none
    exact Cursor.current?_ne none
  refine ⟨m.skipBlanks, ?_, by rw [Cursor.rest_skipBlanks, ends]⟩
  have operand := operand_of_value (.value bare) (Cursor.eat?_eq_none (behind rfl))
  rw [← m.skipBlanks_skipBlanks]
  refine term_of_operand operand (operatorAt?_eq_none false fun op => ?_)
  rw [Cursor.skipBlanks_skipBlanks]
  cases op <;> exact behind rfl

end StandsFor

/-! ### Lists -/

section Elements

variable {α : Type} {items : List α} {texts : α → String} {codes : α → Code}
  (each : ∀ item ∈ items, StandsFor o (texts item).toList (codes item))

/-- What follows the first element of a list. -/
def furtherText (texts : α → String) (items : List α) : List Char :=
  items.flatMap fun item => ',' :: ' ' :: (texts item).toList

theorem ended_furtherText (items : List α) : Ended (furtherText texts items ++ '\x7d' :: tail) := by
  cases items with
  | nil => exact .mark tail (by simp)
  | cons item rest => exact .mark _ (by simp)

theorem dropWhile_furtherText (items : List α) :
    (furtherText texts items ++ '\x7d' :: tail).dropWhile Text.isBlank =
      furtherText texts items ++ '\x7d' :: tail := by
  cases items <;> rfl

include each

/-- Further elements are read up to the brace, each as what it stands for. -/
theorem reads_elements (here : c.rest = furtherText texts items ++ '\x7d' :: tail) :
    ∃ m, Reads o c (.elements (items.map codes)) m ∧ m.rest = '\x7d' :: tail := by
  induction items generalizing c with
  | nil =>
    refine ⟨c, .noElement (Cursor.eat?_eq_none fun comma => ?_), here⟩
    rw [Cursor.current?, here] at comma
    cases comma
  | cons item rest ih =>
    have comma : c.current? = some ',' := Cursor.current?_of_rest here
    have inside : (c.advance 1).rest =
        [' '] ++ ((texts item).toList ++ (furtherText texts rest ++ '\x7d' :: tail)) := by
      rw [Cursor.rest_advance, here]
      simp [furtherText]
    obtain ⟨k, term, behind⟩ :=
      (each item List.mem_cons_self).term [' '] rfl (ended_furtherText rest) inside
    rw [dropWhile_furtherText] at behind
    have further : k.skipBlanks.rest = furtherText texts rest ++ '\x7d' :: tail := by
      rw [Cursor.rest_skipBlanks, behind, dropWhile_furtherText]
    obtain ⟨m, elements, ends⟩ :=
      ih (fun other member => each other (List.mem_cons_of_mem item member)) further
    exact ⟨m, .element (Cursor.eat?_eq_some comma) term elements, ends⟩

omit each in
theorem toList_listText (texts : α → String) (first : α) (rest : List α) :
    ("\x7b" ++ ", ".intercalate ((first :: rest).map texts) ++ "\x7d").toList =
      '\x7b' :: ((texts first).toList ++ (furtherText texts rest ++ ['\x7d'])) := by
  have inner : (", ".intercalate ((first :: rest).map texts)).toList =
      (texts first).toList ++ furtherText texts rest := by
    rw [String.toList_intercalate]
    induction rest generalizing first with
    | nil => simp [furtherText]
    | cons second rest ih =>
      have further := ih second
      rw [List.map_cons, List.map_cons] at further
      rw [List.map_cons, List.map_cons, List.map_cons, List.map_cons, List.intercalate_cons_cons,
        further]
      simp [furtherText]
  rw [String.toList_append, String.toList_append, inner, List.append_assoc, List.append_assoc]
  rfl

/-- What stands in braces with commas between is a list of it. -/
theorem standsFor_list (nonempty : items ≠ []) :
    StandsFor o ("\x7b" ++ ", ".intercalate (items.map texts) ++ "\x7d").toList
      ((items.map codes).flatten ++ [.list items.length]) := by
  obtain ⟨first, rest, rfl⟩ := List.exists_cons_of_ne_nil nonempty
  rw [toList_listText]
  refine ⟨rfl, fun {c tail} _ here => ?_⟩
  have opening : c.current? = some '\x7b' := Cursor.current?_of_rest here
  have inside : (c.advance 1).rest =
      (texts first).toList ++ (furtherText texts rest ++ '\x7d' :: tail) := by
    rw [Cursor.rest_advance, here]
    simp
  have stands := each first List.mem_cons_self
  obtain ⟨m, term, behind⟩ := stands.term [] rfl (ended_furtherText rest) inside
  rw [← stands.skipBlanks inside] at term
  have further : m.skipBlanks.rest = furtherText texts rest ++ '\x7d' :: tail := by
    rw [Cursor.rest_skipBlanks, behind, dropWhile_furtherText, dropWhile_furtherText]
  have noColon : m.skipBlanks.eat? [':'] = none := by
    refine Cursor.eat?_eq_none fun colon => ?_
    rw [Cursor.current?, further] at colon
    cases rest <;> cases colon
  obtain ⟨k, elements, ends⟩ :=
    reads_elements (fun other member => each other (List.mem_cons_of_mem first member)) further
  obtain ⟨c', closing, ends⟩ := Cursor.exists_eat? ends rfl
  have list := Reads.list opening (stands.eat?_eq_none inside rfl) term noColon elements closing
  rw [List.length_map] at list
  exact ⟨c', list, ends⟩

end Elements

/-- What stands in braces with a colon between is an entry of it. -/
theorem standsFor_entry {key value : String} {keyCode valueCode : Code}
    (first : StandsFor o key.toList keyCode) (second : StandsFor o value.toList valueCode) :
    StandsFor o ("\x7b" ++ key ++ " : " ++ value ++ "\x7d").toList
      (keyCode ++ valueCode ++ [.entry]) := by
  have text : ("\x7b" ++ key ++ " : " ++ value ++ "\x7d").toList =
      '\x7b' :: (key.toList ++ ' ' :: ':' :: ' ' :: (value.toList ++ ['\x7d'])) := by
    simp [String.toList_append]
  rw [text]
  refine ⟨rfl, fun {c tail} _ here => ?_⟩
  have opening : c.current? = some '\x7b' := Cursor.current?_of_rest here
  have inside : (c.advance 1).rest =
      key.toList ++ ' ' :: ':' :: ' ' :: (value.toList ++ '\x7d' :: tail) := by
    rw [Cursor.rest_advance, here]
    simp
  obtain ⟨m, keyTerm, behind⟩ := first.term [] rfl (.colon _) inside
  rw [← first.skipBlanks inside] at keyTerm
  obtain ⟨k, colon, behind⟩ := Cursor.exists_eat? behind rfl
  obtain ⟨l, valueTerm, behind⟩ := second.term [' '] rfl (.mark tail (by simp)) behind
  obtain ⟨c', closing, ends⟩ := Cursor.exists_eat? behind rfl
  exact ⟨c', .entry opening (first.eat?_eq_none inside rfl) keyTerm colon valueTerm closing, ends⟩

/-- A name goes on to what follows the value and no further. -/
theorem nameChars_of_ended (ended : Ended tail) : nameChars tail = [] := by
  cases ended with
  | nothing => rfl
  | mark rest closing =>
    simp only [List.mem_cons, List.not_mem_nil, or_false] at closing
    rcases closing with rfl | rfl | rfl <;> rfl
  | colon rest => rfl

/-- The name of null is neither a call nor qualified, wherever a value may end. -/
theorem standsFor_null : StandsFor o "null".toList [.constant none] := by
  refine ⟨rfl, fun {c tail} ended here => ?_⟩
  have current : c.current? = some 'n' := Cursor.current?_of_rest here
  have name : nameAt c = "null".toList := by
    rw [nameAt, here]
    change 'n' :: 'u' :: 'l' :: 'l' :: nameChars tail = _
    rw [nameChars_of_ended ended]
    rfl
  have behind : (afterName c).rest = tail := by
    rw [afterName, name, Cursor.rest_advance, here]
    rfl
  have noCall : (afterName c).current? ≠ some '(' :=
    Cursor.current?_ne (behind ▸ ended.head_of_class rfl)
  have noColon : (afterName c).current? ≠ some ':' :=
    Cursor.current?_ne (behind ▸ ended.head_of_class rfl)
  have alone : isQualified (afterName c) = false := by simp [isQualified, noColon]
  exact ⟨_, .null current rfl noCall alone name, behind⟩

/-- A call of `iter` takes what its argument stands for. -/
theorem standsFor_iterator {list : String} (stands : StandsFor o list.toList code) :
    StandsFor o ("iter(" ++ list ++ ")").toList (code ++ [.call .iter 1]) := by
  have text : ("iter(" ++ list ++ ")").toList =
      'i' :: 't' :: 'e' :: 'r' :: '(' :: (list.toList ++ [')']) := by
    simp [String.toList_append]
  rw [text]
  refine ⟨rfl, fun {c tail} _ here => ?_⟩
  have current : c.current? = some 'i' := Cursor.current?_of_rest here
  have name : nameAt c = "iter".toList := by
    rw [nameAt, here]
    rfl
  have behind : (afterName c).rest = '(' :: (list.toList ++ ')' :: tail) := by
    rw [afterName, name, Cursor.rest_advance, here]
    simp
  have opening := Cursor.current?_of_rest behind
  have inside := Cursor.rest_behind behind
  obtain ⟨m, term, ends⟩ := stands.term [] rfl (.mark tail (by simp)) inside
  rw [← stands.skipBlanks inside] at term
  obtain ⟨c', closing, rest⟩ := Cursor.exists_eat? ends rfl
  have noComma : m.skipBlanks.eat? [','] = none := by
    refine Cursor.eat?_eq_none ?_
    rw [Cursor.current?_of_eat? closing]
    decide
  have found : Builtin.find? (String.ofList (nameAt c)) [code].length = some .iter := by
    rw [name]
    rfl
  have call := Reads.call current rfl opening (stands.eat?_eq_none inside rfl)
    (.lastArgument term noComma closing) found
  rw [List.flatten_singleton] at call
  exact ⟨c', call, rest⟩

/-! ### Values -/

theorem standsFor_integer {width : Width} (n : BitVec width.bits) :
    StandsFor o (Value.text (.integer width n)).toList [.constant (some (.integer width n))] := by
  constructor
  · rcases Numeral.toList_text n with ⟨k, -, text⟩ | ⟨k, -, text⟩
    · obtain ⟨x, rest, digits, digit⟩ := exists_cons_toDigits k
      rw [text, digits]
      simp [opensValue, startsValue, digit]
    · rw [text]
      rfl
  · intro c tail ended here
    obtain ⟨m, literal, ends⟩ := Numeral.literal_text ended here
    exact ⟨m, .literal literal, ends⟩

theorem standsFor_string (s : String) :
    StandsFor o (Value.text (.string s)).toList [.constant (some (.string s))] := by
  constructor
  · rw [Value.text, Text.quote, String.toList_ofList]
    rfl
  · intro c tail _ here
    have current : c.current? = some '"' := by
      rw [Cursor.current?, here, Value.text, Text.quote, String.toList_ofList]
      rfl
    obtain ⟨m, read, ends⟩ := Quoted.run_readText_quote here
    exact ⟨m, .literal (.text current read), ends⟩

theorem standsFor_slot {slot : Slot} (each : ∀ v ∈ slot, StandsFor o v.text.toList v.code) :
    StandsFor o (Value.slotText slot).toList (Value.slotCode slot) := by
  cases slot with
  | none => exact standsFor_null
  | some v => exact each v rfl

/-- A composed value's text stands for its code. -/
theorem standsFor_text {v : Value} (composed : v.Composed) : StandsFor o v.text.toList v.code := by
  induction composed with
  | integer width n => exact standsFor_integer n
  | string s => exact standsFor_string s
  | entry first second firstIH secondIH => exact standsFor_entry firstIH secondIH
  | @list t items uniform noEntries contents ih =>
    have list := standsFor_list (fun slot member => standsFor_slot (ih slot member)) uniform.ne_nil
    rw [Value.code, Value.slotCodes_eq, Value.text, Value.itemTexts_eq]
    exact list
  | @iterator t items uniform noEntries contents ih =>
    have list := standsFor_list (fun slot member => standsFor_slot (ih slot member)) uniform.ne_nil
    have call := standsFor_iterator list
    rw [List.append_assoc] at call
    rw [Value.code, Value.slotCodes_eq, Value.text, Value.itemTexts_eq]
    -- The call's text has its parenthesis and the list's brace in one piece at either end.
    rw [← String.append_assoc, ← String.append_assoc, String.append_assoc] at call
    exact call
  | @map keyTy valueTy pairs keyTys uniform apart keys values keysIH valuesIH =>
    have pairs (pair : Value × Slot) (member : pair ∈ pairs) :
        StandsFor o (Value.pairText pair).toList (Value.pairCode pair) :=
      standsFor_entry (keysIH pair member) (standsFor_slot (valuesIH pair member))
    rw [Value.code, Value.pairCodes_eq, Value.text, Value.pairTexts_eq]
    exact standsFor_list pairs uniform.pairs_ne_nil

/-- The text of a composed value compiles, whether constants are computed ahead or not, and evaluates
to the value. -/
theorem exists_compile_text {v : Value} (composed : v.Composed) (o : CompileOptions) :
    ∃ e, compile o v.text = .ok e ∧
      ∀ context : Context, e.evaluate context = .ok (.single (some v)) := by
  have here : (Cursor.start v.text).rest = [] ++ (v.text.toList ++ []) := by
    simp [Cursor.start]
  obtain ⟨m, term, ends⟩ := (standsFor_text composed).term [] rfl .nothing here
  have parsed : parse o v.text = .ok v.code := by
    refine parse_eq_ok.mpr ⟨m, term, ?_⟩
    rw [Cursor.current?, Cursor.rest_skipBlanks, ends]
    rfl
  refine ⟨if o.fold then folded v.code else ⟨v.code⟩, ?_, fun context => ?_⟩
  · rw [compile, parsed]
    rfl
  · have yields : v.code.execute context = .ok (.single (some v)) := composed.yields.execute context
    rw [evaluate_eq_execute]
    split
    · exact (Code.execute_fold context v.code).trans yields
    · exact yields

/-- A map from texts that are escaped, or take two units, to an iterator over the least long and null,
and to null. -/
theorem exists_compile_text_nested :
    let numbers : Value := .iterator (some .long) [some (.integer .long (BitVec.intMin 64)), none]
    let v : Value := .map (some .string) (some numbers.ty)
      [(.string "\"\\", some numbers), (.string "😀", none)]
    v.Composed ∧ ∀ fold : Bool, ∃ e, compile ⟨"global", fold, .standard⟩ v.text = .ok e ∧
      ∀ context : Context, e.evaluate context = .ok (.single (some v)) := by
  intro numbers v
  have long : numbers.Composed := by
    refine .iterator ⟨?_, _, List.mem_cons_self⟩ nofun ?_
    · simp [Value.ty]
    · simpa using Value.Composed.integer .long (BitVec.intMin 64)
  have composed : v.Composed := by
    refine .map ?_ ⟨?_, numbers, List.mem_cons_self⟩ ?_ ?_ ?_
    · simp [Value.ty]
    · simp
    · decide
    · simp [Value.Composed.string]
    · simpa using long
  exact ⟨composed, fun fold => exists_compile_text composed ⟨"global", fold, .standard⟩⟩

end Expression

end Immediate
