import Immediate.Proofs.Source.Barrier
import Immediate.Proofs.Source.Closing
import Immediate.Proofs.Source.Precedence
import Immediate.Proofs.Trimming
/-! Parentheses around an operand. What compiles is compiled to the same code in parentheses in
front of an operator. A point starts a value, so there is one exception: in front of a range a word
alone in the parentheses is taken for the type of a cast, and nothing is compiled. -/
namespace Immediate.Expression

open Immediate.Parser

/-- A text is one word, as the name of a type is, with or without blanks around it. -/
def IsWord (e : String) : Prop := (Text.trimChars e.toList).all TypeName.isNameChar = true

instance : DecidablePred IsWord := fun e =>
  inferInstanceAs (Decidable ((Text.trimChars e.toList).all TypeName.isNameChar = true))

theorem not_blank_of_isNameChar {x : Char} (name : TypeName.isNameChar x = true) :
    Text.isBlank x = false := Text.not_isBlank_of_class (by decide) name

theorem isWord_iff {e : String} : IsWord e ↔ ∃ front word back,
    e.toList = front ++ (word ++ back) ∧ (∀ x ∈ front, Text.isBlank x = true) ∧
      (∀ x ∈ word, TypeName.isNameChar x = true) ∧ ∀ x ∈ back, Text.isBlank x = true := by
  constructor
  · intro isWord
    obtain ⟨back, equal, blank⟩ := Text.exists_blanks (e.toList.dropWhile Text.isBlank)
    refine ⟨e.toList.takeWhile Text.isBlank, Text.trimChars e.toList, back, ?_,
      List.all_eq_true.mp List.all_takeWhile, List.all_eq_true.mp isWord, blank⟩
    rw [Text.trimChars_eq, ← equal, List.takeWhile_append_dropWhile]
  · rintro ⟨front, word, back, equal, blank, named, blank'⟩
    have trimmed : Text.trimChars e.toList = Text.trimEnd (word.dropWhile Text.isBlank) := by
      rw [equal, ← List.append_assoc, Text.trimChars_append_blanks blank', Text.trimChars_eq,
        List.dropWhile_append_of_pos blank]
    rw [IsWord, trimmed, List.all_eq_true]
    exact fun x member => named x
      ((List.dropWhile_sublist _).subset ((Text.starts_trimEnd _).subset member))

/-- The characters of words and of the blanks around them. -/
def Wordy (x : Char) : Prop := TypeName.isNameChar x = true ∨ Text.isBlank x = true

instance : DecidablePred Wordy := fun x =>
  inferInstanceAs (Decidable (TypeName.isNameChar x = true ∨ Text.isBlank x = true))

theorem wordy_of_isWord {e : String} (isWord : IsWord e) : ∀ x ∈ e.toList, Wordy x := by
  obtain ⟨front, word, back, equal, blank, named, blank'⟩ := isWord_iff.mp isWord
  intro x member
  rw [equal] at member
  rcases List.mem_append.mp member with inFront | inside
  · exact .inr (blank x inFront)
  rcases List.mem_append.mp inside with inWord | inBack
  · exact .inl (named x inWord)
  · exact .inr (blank' x inBack)

/-! ### What a parenthesis holds -/

/-- Where a closed text is followed from its start by characters of a class, either the text ends
there or what follows stands in it. -/
theorem exists_between {class_ : Char → Prop} (open_ : ¬class_ ')') {e more rest : List Char}
    {d k : Cursor} {z : Char} (here : d.rest = e ++ ')' :: more) (through : d.Through class_ k)
    (there : k.rest = z :: rest) : ∃ between, (∀ x ∈ between, class_ x) ∧
      ((e = between ∧ z = ')' ∧ rest = more) ∨
        ∃ others, e = between ++ z :: others ∧ rest = others ++ ')' :: more) := by
  obtain ⟨count, rfl, taken⟩ := through
  refine ⟨d.rest.take count, taken, ?_⟩
  have parted : e ++ ')' :: more = d.rest.take count ++ z :: rest := by
    rw [← there, Cursor.rest_advance, List.take_append_drop, here]
  rcases List.append_eq_append_iff.mp parted with ⟨further, front, back⟩ | ⟨further, front, back⟩
  · cases further with
    | nil =>
      rw [List.append_nil] at front
      obtain ⟨rfl, rfl⟩ := List.cons.inj back
      exact .inl ⟨front.symm, rfl, rfl⟩
    | cons x further =>
      obtain ⟨rfl, -⟩ := List.cons.inj back
      refine absurd (taken ')' ?_) open_
      rw [front]
      exact List.mem_append_right _ List.mem_cons_self
  · cases further with
    | nil =>
      rw [List.append_nil] at front
      obtain ⟨rfl, rfl⟩ := List.cons.inj back
      exact .inl ⟨front, rfl, rfl⟩
    | cons x further =>
      obtain ⟨rfl, rfl⟩ := List.cons.inj back
      exact .inr ⟨further, front, rfl⟩

/-- What stands up to the place behind a name and the blanks around it. -/
theorem exists_word (c : Cursor) : ∃ front word back,
    c.rest = front ++ (word ++ (back ++ (TypeName.nameEnd c).skipBlanks.rest)) ∧
      (∀ x ∈ front, Text.isBlank x = true) ∧ (∀ x ∈ word, TypeName.isNameChar x = true) ∧
      ∀ x ∈ back, Text.isBlank x = true := by
  have parted (c : Cursor) (p : Char → Bool) :
      c.rest = (c.takeWhile p).1 ++ (c.takeWhile p).2.rest :=
    (List.prefix_iff_eq_append.mp (List.takeWhile_prefix p)).symm
  have each (c : Cursor) (p : Char → Bool) : ∀ x ∈ (c.takeWhile p).1, p x = true :=
    List.all_eq_true.mp List.all_takeWhile
  refine ⟨_, _, _, ?_, each c Text.isBlank, each c.skipBlanks TypeName.isNameChar,
    each (TypeName.nameEnd c) Text.isBlank⟩
  calc c.rest
    _ = _ ++ c.skipBlanks.rest := parted c Text.isBlank
    _ = _ ++ (_ ++ (TypeName.nameEnd c).rest) := by rw [TypeName.nameEnd, ← parted]
    _ = _ ++ (_ ++ (_ ++ (TypeName.nameEnd c).skipBlanks.rest)) := by
      rw [Cursor.skipBlanks, Cursor.skipBlanks, ← parted]

/-- A word in front of something that is neither a blank nor in a word is the name that is found. -/
theorem word_of_rest {c : Cursor} {front word back more : List Char} {z : Char}
    (here : c.rest = front ++ (word ++ (back ++ z :: more)))
    (blank : ∀ x ∈ front, Text.isBlank x = true) (some : word ≠ [])
    (named : ∀ x ∈ word, TypeName.isNameChar x = true)
    (blank' : ∀ x ∈ back, Text.isBlank x = true) (solid : Text.isBlank z = false)
    (noName : TypeName.isNameChar z = false) :
    (c.skipBlanks.takeWhile TypeName.isNameChar).1 = word ∧
      (TypeName.nameEnd c).skipBlanks.rest = z :: more := by
  have start : c.skipBlanks.rest = word ++ (back ++ z :: more) := by
    rw [Cursor.rest_skipBlanks, here, List.dropWhile_append_of_pos blank]
    obtain ⟨x, others, rfl⟩ := List.exists_cons_of_ne_nil some
    have visible := not_blank_of_isNameChar (named x List.mem_cons_self)
    exact List.dropWhile_cons_of_neg (by simp [visible])
  have behind : (back ++ z :: more).takeWhile TypeName.isNameChar = [] := by
    cases back with
    | nil => exact List.takeWhile_cons_of_neg (by simp [noName])
    | cons y back =>
      refine List.takeWhile_cons_of_neg fun name => ?_
      have visible := not_blank_of_isNameChar name
      rw [blank' y List.mem_cons_self] at visible
      cases visible
  have taken : c.skipBlanks.rest.takeWhile TypeName.isNameChar = word := by
    rw [start, List.takeWhile_append_of_pos named, behind, List.append_nil]
  refine ⟨taken, ?_⟩
  have rest : (TypeName.nameEnd c).rest = back ++ z :: more := by
    change c.skipBlanks.rest.drop (c.skipBlanks.rest.takeWhile TypeName.isNameChar).length = _
    rw [taken, start, List.drop_left]
  rw [Cursor.rest_skipBlanks, rest, List.dropWhile_append_of_pos blank']
  exact List.dropWhile_cons_of_neg (by simp [solid])

section
variable {o : CompileOptions} {e : String} {code : Code} {c' d k : Cursor} {more rest : List Char}
  (term : Reads o (.start e) (.term false code) c') (ended : c'.skipBlanks.current? = none)
  (here : d.rest = e.toList ++ ')' :: more)
include term ended

/-- A text that compiles does not go up to a barrier. -/
theorem no_barrier {barrier between : List Char} (ends : Barrier barrier)
    (equal : e.toList = between ++ barrier)
    (written : ∀ x ∈ between, TypeName.Written x ∧ (x = '<' → barrier.head? ≠ some '<')) : False :=
  Before.not_ended ends term ended ⟨between, equal, written⟩

include here

/-- The first closing parenthesis behind characters of types is the one behind the text. -/
theorem rest_of_closing (through : d.Through TypeName.Written k) (there : k.rest = ')' :: rest) :
    rest = more := by
  obtain ⟨between, written, ⟨-, -, equal⟩ | ⟨others, equal, -⟩⟩ :=
    exists_between (by decide) here through there
  · exact equal
  · refine (no_barrier term ended (.paren others) equal fun x member => ?_).elim
    exact ⟨written x member, fun _ => by simp⟩

/-- No type with children ends in front of a closing parenthesis. -/
theorem not_bracketed {m closed : Cursor} (through : d.Through TypeName.Written k)
    (bracket : k.eat? ['>'] = some m) (closing : m.skipBlanks.eat? [')'] = some closed) :
    False := by
  obtain ⟨between, written, ⟨-, impossible, -⟩ | ⟨others, equal, behind⟩⟩ :=
    exists_between (by decide) here through (Cursor.rest_of_eat? bracket)
  · exact absurd impossible (by decide)
  · refine no_barrier term ended (.greater fun x first => ?_) equal fun x member => ?_
    · have visible : ¬(others.dropWhile Text.isBlank).isEmpty = true := by
        intro none
        rw [List.isEmpty_iff.mp none] at first
        cases first
      have current := Cursor.current?_of_eat? closing
      rw [Cursor.current?, Cursor.rest_skipBlanks, behind, List.dropWhile_append, if_neg visible,
        List.head?_append, first] at current
      exact Option.some.inj current
    · exact ⟨written x member, fun _ => by simp⟩

/-- An angle bracket behind the first word is the first one of a shift. -/
theorem shift_of_bracket {m : Cursor}
    (bracket : (TypeName.nameEnd d).skipBlanks.eat? ['<'] = some m) : m.current? = some '<' := by
  have through : d.Through Wordy (TypeName.nameEnd d).skipBlanks :=
    TypeName.through_nameEnd (fun _ => .inr) (fun _ => .inl) d
  obtain ⟨between, wordy, ⟨-, impossible, -⟩ | ⟨others, equal, behind⟩⟩ :=
    exists_between (by decide) here through (Cursor.rest_of_eat? bracket)
  · exact absurd impossible (by decide)
  · refine Classical.byContradiction fun single => ?_
    refine no_barrier term ended (.less fun second => single ?_) equal fun x member => ?_
    · rw [Cursor.current?, behind, List.head?_append, second]
      rfl
    · refine ⟨(wordy x member).elim .inl (TypeName.written_of_isBlank x), ?_⟩
      rintro rfl
      exact absurd (wordy '<' member) (by decide)

/-- What is closed behind its first word is that word. -/
theorem isWord_of_closing (closing : (TypeName.nameEnd d).skipBlanks.rest = ')' :: rest) :
    rest = more ∧ IsWord e := by
  have through := TypeName.through_nameEnd TypeName.written_of_isBlank (fun _ => .inl) d
  obtain rfl := rest_of_closing term ended here through closing
  obtain ⟨front, word, back, parted, blanks⟩ := exists_word d
  rw [closing, here] at parted
  refine ⟨rfl, isWord_iff.mpr ⟨front, word, back, ?_, blanks⟩⟩
  have whole : e.toList ++ ')' :: rest = front ++ (word ++ back) ++ ')' :: rest := by
    rw [parted, List.append_assoc, List.append_assoc]
  exact List.append_cancel_right whole

omit ended here in
/-- A text that compiles is not blank. -/
theorem word_ne_nil {front word back : List Char} (equal : e.toList = front ++ (word ++ back))
    (blank : ∀ x ∈ front, Text.isBlank x = true) (blank' : ∀ x ∈ back, Text.isBlank x = true) :
    word ≠ [] := by
  rintro rfl
  cases term with
  | term operand =>
    obtain ⟨x, current, -⟩ := current_of_operand operand
    have nothing : e.toList.dropWhile Text.isBlank = [] := by
      rw [equal, List.nil_append, List.dropWhile_append_of_pos blank, ← List.append_nil back]
      exact List.dropWhile_append_of_pos blank'
    rw [Cursor.current?, Cursor.rest_skipBlanks] at current
    change (e.toList.dropWhile Text.isBlank).head? = some x at current
    rw [nothing] at current
    cases current

omit term ended here in
theorem isAt_behind {closed : Cursor} (equal : closed.rest = more) :
    closed.skipBlanks.isAt startsValue = (more.dropWhile Text.isBlank).head?.any startsValue := by
  rw [Cursor.isAt, Cursor.current?, Cursor.rest_skipBlanks, equal]

/-- A parenthesis around a text that compiles holds a term, unless the text is a word and a value
starts behind it. -/
theorem holds_term
    (other : (more.dropWhile Text.isBlank).head?.any startsValue = true → ¬IsWord e) :
    castAt? o.registry d = .ok none := by
  have noValue {closed : Cursor}
      (closing : (TypeName.nameEnd d).skipBlanks.eat? [')'] = some closed) :
      closed.skipBlanks.isAt startsValue = false := by
    obtain ⟨equal, isWord⟩ := isWord_of_closing term ended here (Cursor.rest_of_eat? closing)
    rw [isAt_behind equal]
    exact Bool.eq_false_iff.mpr fun starts => other starts isWord
  refine castAt?_eq_none.mpr ?_
  cases run : (TypeName.readHere o.registry).run d with
  | ok read =>
    obtain ⟨t, after⟩ := read
    refine .inl ⟨t, after, rfl, fun closed closing => ?_⟩
    rcases TypeName.ended_of_readHere run with rfl | ⟨k, through, bracket⟩
    · exact noValue closing
    · exact (not_bracketed term ended here through bracket closing).elim
  | error e =>
    refine .inr ⟨⟨e, rfl⟩, ?_⟩
    rw [looksLikeCast_eq]
    cases bracket : (TypeName.nameEnd d).skipBlanks.eat? ['<'] with
    | some inside =>
      dsimp only
      rw [Cursor.isAt, shift_of_bracket term ended here bracket]
      exact Bool.and_false _
    | none =>
      cases closing : (TypeName.nameEnd d).skipBlanks.eat? [')'] with
      | some closed =>
        dsimp only
        rw [noValue closing, Bool.and_false]
      | none => exact Bool.and_false _

omit ended in
/-- A word in front of the start of a value is a cast, whether it names a type or not. -/
theorem holds_cast (isWord : IsWord e)
    (starts : (more.dropWhile Text.isBlank).head?.any startsValue = true) :
    castAt? o.registry d ≠ .ok none := by
  obtain ⟨front, word, back, equal, blank, named, blank'⟩ := isWord_iff.mp isWord
  have rest : d.rest = front ++ (word ++ (back ++ ')' :: more)) := by
    rw [here, equal, List.append_assoc, List.append_assoc]
  have some := word_ne_nil term equal blank blank'
  obtain ⟨name, closing⟩ := word_of_rest rest blank some named blank' rfl rfl
  have current := Cursor.current?_of_rest closing
  have value := (isAt_behind (Cursor.rest_behind closing)).trans starts
  intro told
  rcases castAt?_eq_none.mp told with ⟨t, after, run, other⟩ | ⟨-, other⟩
  · rcases TypeName.ended_of_readHere run with rfl | ⟨k, through, bracket⟩
    · exact absurd value (by simp [other _ (Cursor.eat?_eq_some current)])
    · -- The bracket that ends a type with children would stand in the word.
      obtain ⟨between, -, ⟨-, impossible, -⟩ | ⟨others, parted, -⟩⟩ :=
        exists_between (by decide) here through (Cursor.rest_of_eat? bracket)
      · exact absurd impossible (by decide)
      · exact absurd (wordy_of_isWord isWord '>' (by simp [parted])) (by decide)
  · have noBracket : (TypeName.nameEnd d).skipBlanks.eat? ['<'] = none :=
      Cursor.eat?_eq_none (by rw [current]; decide)
    rw [looksLikeCast_eq, name, noBracket, Cursor.eat?_eq_some current] at other
    dsimp only at other
    rw [value, Bool.and_true, Bool.not_eq_false', List.isEmpty_iff] at other
    exact some other

end

/-! ### An operator behind the parenthesis -/

/-- No value starts with two points. -/
theorem no_value_of_points {o : CompileOptions} {c c' : Cursor} {code : Code} {more : List Char}
    (here : c.rest = '.' :: '.' :: more) : ¬Reads o c (.value code) c' := by
  have current := Cursor.current?_of_rest here
  have next : c.next? = some '.' := by rw [Cursor.next?, here]; rfl
  intro value
  cases value with
  | value bare =>
  rw [Cursor.skipBlanks_of_current current rfl] at bare
  obtain ⟨x, met, start⟩ := start_of_bare bare
  obtain rfl : '.' = x := Option.some.inj (current.symm.trans met)
  rw [next] at start
  exact absurd start (by decide)

/-- A value that starts with a parenthesis without a term in it is a cast. -/
theorem cast_of_paren {o : CompileOptions} {c c' : Cursor} {code : Code}
    (value : Reads o c (.value code) c') (opening : c.current? = some '(')
    (noTerm : castAt? o.registry (c.advance 1) ≠ .ok none) : ∃ t m inner,
      castAt? o.registry (c.advance 1) = .ok (some (t, m)) ∧ Reads o m (.value inner) c' := by
  have same {x : Char} (met : c.current? = some x) : '(' = x :=
    Option.some.inj (opening.symm.trans met)
  cases value with
  | value bare =>
  rw [Cursor.skipBlanks_of_current opening rfl] at bare
  cases bare with
  | cast _ cast inner => exact ⟨_, _, _, cast, inner⟩
  | parens _ noCast => exact absurd noCast noTerm
  | literal literal =>
    obtain ⟨x, met, start⟩ := start_of_literal literal
    obtain rfl := same met
    rcases start with mark | digit | ⟨point, -⟩
    · exact absurd mark (by decide)
    · cases digit
    · exact absurd point (by decide)
  | negation met | noElements met | entry met | list met => exact absurd (same met) (by decide)
  | noArguments met name | call met name | null met name | loaded met name =>
    obtain rfl := same met
    cases name

/-- An operand stands behind any blanks. -/
theorem operand_alike {o : CompileOptions} {tail : List Char} (closes : Cursor.Closes tail)
    {c c' d : Cursor} {code : Code} (operand : Reads o c (.operand code) c')
    (alike : Cursor.Alike [] tail c.skipBlanks d.skipBlanks) :
    ∃ d', Reads o d (.operand code) d' ∧ Cursor.Alike [] tail c' d' := by
  cases operand with
  | operand value indices =>
  cases value with
  | value bare =>
  obtain ⟨n, bare, alike⟩ := reads_alike closes bare alike
  obtain ⟨d', indices, alike⟩ := reads_alike closes indices alike
  exact ⟨d', .operand (.value bare) indices, alike⟩

/-- A text with parentheses around it, an operator behind them and an operand behind that. -/
def parenthesized (e : String) (op : BinaryOp) (r : String) : String :=
  "(" ++ e ++ ") " ++ op.symbol ++ " " ++ r

section
variable {e r : String} {op : BinaryOp} {cs : List Char}

theorem toList_parenthesized : (parenthesized e op r).toList =
    '(' :: (e.toList ++ ')' :: ' ' :: (op.symbol.toList ++ ' ' :: r.toList)) := by
  simp [parenthesized]

/-- Only a range starts a value. -/
theorem startsValue_of_operator :
    ((' ' :: (op.symbol.toList ++ cs)).dropWhile Text.isBlank).head?.any startsValue =
      decide (op = .range) := by
  cases op <;> rfl

theorem operatorAt?_of_rest {c : Cursor} (here : c.rest = op.symbol.toList ++ ' ' :: cs) :
    operatorAt? false c = some op := by
  rw [operatorAt?, here]
  cases op <;> rfl

end

section
variable {o : CompileOptions} {e r : String} {op : BinaryOp} {ce cr : Code}

/-- The place behind the opening parenthesis. -/
def insideParen (e : String) (op : BinaryOp) (r : String) : Cursor :=
  (Cursor.start (parenthesized e op r)).advance 1

theorem current_parenthesized : (Cursor.start (parenthesized e op r)).current? = some '(' :=
  Cursor.current?_of_rest toList_parenthesized

theorem rest_insideParen : (insideParen e op r).rest =
    e.toList ++ ')' :: ' ' :: (op.symbol.toList ++ ' ' :: r.toList) :=
  Cursor.rest_behind (c := .start (parenthesized e op r)) toList_parenthesized

/-- A parenthesis that holds the term is a value, with the operator behind it. -/
theorem value_of_parens (inner : parse o e = .ok ce)
    (noCast : castAt? o.registry (insideParen e op r) = .ok none) :
    ∃ k, Reads o (.start (parenthesized e op r)) (.value ce) k ∧
      k.skipBlanks.rest = op.symbol.toList ++ ' ' :: r.toList := by
  obtain ⟨c', term, ended⟩ := parse_eq_ok.mp inner
  have closes : Cursor.Closes (')' :: ' ' :: (op.symbol.toList ++ ' ' :: r.toList)) := .inr ⟨_, rfl⟩
  have alike : Cursor.Alike [] _ (.start e) (insideParen e op r) :=
    ⟨e.toList, (List.append_nil _).symm, rest_insideParen⟩
  obtain ⟨n, term, behind⟩ := reads_alike closes term alike
  have closing := (behind.skipBlanks (.inl rfl) closes).rest
  rw [List.head?_eq_none_iff.mp ended, List.nil_append] at closing
  have bare := Reads.parens current_parenthesized noCast term
    (Cursor.eat?_eq_some (Cursor.current?_of_rest closing))
  refine ⟨_, .value ((Cursor.skipBlanks_of_current current_parenthesized rfl).symm ▸ bare), ?_⟩
  rw [Cursor.rest_skipBlanks, Cursor.rest_behind closing]
  cases op <;> rfl

/-- A text without an operator at its top level is an operand that no operator follows. -/
theorem operand_of_parse (outer : parse o r = .ok cr)
    (single : ∀ first rest c', ScansTerm o false (.start r) first rest c' → rest = []) :
    ∃ m c', Reads o (.start r) (.operand cr) m ∧ Reads o m (.operations false []) c' ∧
      c'.skipBlanks.current? = none := by
  obtain ⟨c', run, ended⟩ := readAll_eq_ok.mp outer
  obtain ⟨first, rest, scan, rfl⟩ := scansTerm_of_run run
  obtain rfl := single first rest c' scan
  obtain ⟨m, ⟨fuel, operand⟩, operations⟩ := scan
  refine ⟨m, c', ?_, reads_of_scansOperations operations, ended⟩
  simpa [Code.ofChain, Code.weave] using (sound o fuel).operand operand

/-- Where the parenthesis holds the term, it is the left operand. -/
theorem parse_of_term (inner : parse o e = .ok ce) (outer : parse o r = .ok cr)
    (single : ∀ first rest c', ScansTerm o false (.start r) first rest c' → rest = [])
    (noCast : castAt? o.registry (insideParen e op r) = .ok none) :
    parse o (parenthesized e op r) = .ok (ce ++ cr ++ [.binary op]) := by
  have whole : Cursor.Closes [] := .inl rfl
  obtain ⟨k, value, behind⟩ := value_of_parens inner noCast
  have noIndex : k.skipBlanks.eat? ['['] = none := by
    refine Cursor.eat?_eq_none ?_
    rw [Cursor.current?, behind]
    cases op <;> exact fun bracket => absurd (Option.some.inj bracket) (by decide)
  have left := operand_of_value value noIndex
  have operator : operatorAt? false k.skipBlanks.skipBlanks = some op := by
    rw [Cursor.skipBlanks_skipBlanks]
    exact operatorAt?_of_rest behind
  obtain ⟨m, c', right, operations, ended⟩ := operand_of_parse outer single
  -- The right operand stands behind the operator as it does alone.
  have start : Cursor.Alike [] [] (Cursor.start r).skipBlanks
      (k.skipBlanks.skipBlanks.advance op.symbol.length).skipBlanks := by
    have rest : (k.skipBlanks.advance op.symbol.length).rest = ' ' :: r.toList := by
      rw [Cursor.rest_advance, behind, ← String.length_toList, List.drop_left]
    refine ⟨_, (List.append_nil _).symm, ?_⟩
    rw [Cursor.skipBlanks_skipBlanks, Cursor.rest_skipBlanks, rest, Cursor.rest_skipBlanks,
      List.append_nil]
    rfl
  obtain ⟨n, right, alike⟩ := operand_alike whole right start
  obtain ⟨d', operations, alike⟩ := reads_alike whole operations alike
  have term := Reads.term left (.operation operator right operations)
  refine parse_eq_ok.mpr ⟨d', ?_, ?_⟩
  · simpa [Code.ofChain, Code.weave] using term
  · rw [Cursor.current?, (alike.skipBlanks whole whole).rest, List.append_nil]
    exact ended

/-- Where a type is read in the parenthesis, nothing follows that it could be the type of. -/
theorem not_parse_of_cast (inner : parse o e = .ok ce)
    (cast : castAt? o.registry (insideParen e .range r) ≠ .ok none) (code : Code) :
    parse o (parenthesized e .range r) ≠ .ok code := by
  intro parsed
  obtain ⟨c', term, ended⟩ := parse_eq_ok.mp inner
  obtain ⟨k, reads, -⟩ := parse_eq_ok.mp parsed
  cases reads with
  | term operand =>
  cases operand with
  | operand value =>
  obtain ⟨t, m, inner, told, value⟩ := cast_of_paren value current_parenthesized cast
  obtain ⟨after, closed, run, closing, -, rfl⟩ := castAt?_eq_some.mp told
  have through := (TypeName.takesOnly_readHere o.registry _ t after run).trans
    (after.through_skipBlanks TypeName.written_of_isBlank)
  have rest := rest_of_closing term ended rest_insideParen through (Cursor.rest_of_eat? closing)
  have points : closed.skipBlanks.rest = '.' :: '.' :: ' ' :: r.toList := by
    rw [Cursor.rest_skipBlanks, rest]
    rfl
  exact no_value_of_points points value

/-- Parentheses with an operator behind them are transparent: they hold the left operand of the
operator. But a point starts a value, so where they hold nothing but a word in front of a range,
they are read as a cast, which has no value. -/
theorem parse_parenthesized (o : CompileOptions) (e r : String) (op : BinaryOp) {ce cr : Code}
    (inner : parse o e = .ok ce) (outer : parse o r = .ok cr)
    (single : ∀ first rest c', ScansTerm o false (.start r) first rest c' → rest = []) :
    (¬(op = .range ∧ IsWord e) → parse o (parenthesized e op r) = .ok (ce ++ cr ++ [.binary op])) ∧
      (op = .range ∧ IsWord e → ∃ fault, parse o (parenthesized e op r) = .error fault) := by
  obtain ⟨c', term, ended⟩ := parse_eq_ok.mp inner
  refine ⟨fun other => parse_of_term inner outer single ?_, ?_⟩
  · refine holds_term term ended rest_insideParen fun starts word => other ⟨?_, word⟩
    rwa [startsValue_of_operator, decide_eq_true_eq] at starts
  · rintro ⟨rfl, word⟩
    have cast : castAt? o.registry (insideParen e .range r) ≠ .ok none :=
      holds_cast term rest_insideParen word (startsValue_of_operator.trans (decide_eq_true rfl))
    have never := not_parse_of_cast inner cast
    cases parsed : parse o (parenthesized e .range r) with
    | ok code => exact absurd parsed (never code)
    | error fault => exact ⟨fault, rfl⟩

end

/-- A text that scans as one operand has no operator at its top level. -/
theorem single_of_scan {o : CompileOptions} {c c' : Cursor} {code : Code}
    (scan : ScansTerm o false c code [] c') (first : Code) (rest : List (BinaryOp × Code))
    (k : Cursor) (other : ScansTerm o false c first rest k) : rest = [] :=
  (scan.unique other).2.1.symm

theorem scan_five :
    ScansTerm {} false (.start "5") [.constant (some (.integer .int 5))] [] ⟨1, []⟩ :=
  ⟨⟨1, []⟩, ⟨4, by rfl⟩, .ended (by rfl)⟩

/-- In `(a << b) .. 5` the parenthesis holds a shift, but nothing is read from `(x) .. 5`. -/
theorem parse_parenthesized_range :
    let load (name : String) : Instruction := .variable ⟨"global", name⟩
    let five : Instruction := .constant (some (.integer .int 5))
    ¬IsWord "a << b" ∧ IsWord "x" ∧
      parse {} "(a << b) .. 5" = .ok [load "a", load "b", .binary .shl, five, .binary .range] ∧
      ∃ fault, parse {} "(x) .. 5" = .error fault := by
  intro load five
  have shift : ¬IsWord "a << b" := by decide
  have word : IsWord "x" := by decide
  have shifted := parse_parenthesized {} "a << b" "5" .range
    (by rfl : parse {} "a << b" = .ok [load "a", load "b", .binary .shl])
    (by rfl : parse {} "5" = .ok [five]) (single_of_scan scan_five)
  have cast := parse_parenthesized {} "x" "5" .range (by rfl : parse {} "x" = .ok [load "x"])
    (by rfl : parse {} "5" = .ok [five]) (single_of_scan scan_five)
  exact ⟨shift, word, shifted.1 fun both => shift both.2, cast.2 ⟨rfl, word⟩⟩

/-- In front of a range a variable in parentheses is taken for the type of a cast. -/
theorem not_transparent_before_range : ¬∀ (o : CompileOptions) (e r : String) (op : BinaryOp)
    (ce cr : Code), parse o e = .ok ce → parse o r = .ok cr →
      (∀ first rest c', ScansTerm o false (.start r) first rest c' → rest = []) →
      parse o (parenthesized e op r) = .ok (ce ++ cr ++ [.binary op]) := by
  intro transparent
  have compiled := transparent {} "x" "5" .range [.variable ⟨"global", "x"⟩]
    [.constant (some (.integer .int 5))] (by rfl) (by rfl) (single_of_scan scan_five)
  have failed : parse {} (parenthesized "x" .range "5") = .error ⟨.unknownType "x", 1⟩ := by rfl
  rw [failed] at compiled
  cases compiled

end Immediate.Expression
