import Immediate.Proofs.Source.Soundness
/-! The readers read every phrase of the grammar. Each form of a phrase is read from readings of its
parts with less fuel, and eight times the characters that are left is fuel enough: between two that
are taken, at most seven readers call each other. So a text is read exactly when it is a term. -/
namespace Immediate.Expression

open Immediate.Parser

/-- The fuel that a reader takes before a character is taken. -/
def Phrase.cost : Phrase → Nat
  | .bare _ | .index _ | .operations .. | .elements _ => 1
  | .value _ | .indices _ => 2
  | .operand _ => 3
  | .term .. => 4
  | .arguments _ => 5

/-- The reader of a phrase reads it, given this fuel. -/
def Phrase.RunsWith (o : CompileOptions) (fuel : Nat) (c c' : Cursor) : Phrase → Prop
  | .term stop code => (readTerm o stop fuel).run c = .ok (code, c')
  | .operations stop rest => (readOperations o stop fuel).run c = .ok (rest, c')
  | .operand code => (readOperand o fuel).run c = .ok (code, c')
  | .indices accessors => (readIndices o fuel).run c = .ok (accessors, c')
  | .index a => (readIndex? o fuel).run c = .ok (some a, c')
  | .value code => (readValue o fuel).run c = .ok (code, c')
  | .bare code => ∀ start : Cursor, start.skipBlanks = c →
    (readValue o (fuel + 1)).run start = .ok (code, c')
  | .elements codes => (readElements o fuel).run c = .ok (codes, c')
  | .arguments codes => ∀ opening, (readArguments o opening fuel).run c = .ok (codes, c')

/-- There is enough fuel for a phrase, however it goes on. -/
def Enough (c : Cursor) (phrase : Phrase) (fuel : Nat) : Prop :=
  8 * c.rest.length + phrase.cost ≤ fuel

theorem Enough.exists_succ {c : Cursor} {phrase : Phrase} {fuel : Nat}
    (enough : Enough c phrase fuel) : ∃ less, fuel = less + 1 := by
  have positive : 1 ≤ phrase.cost := by cases phrase <;> simp [Phrase.cost]
  refine ⟨fuel - 1, ?_⟩
  unfold Enough at enough
  omega

/-- A character that is taken leaves fuel for any phrase. -/
theorem Enough.behind {c m : Cursor} {phrase other : Phrase} {fuel : Nat} (past : c.Past m)
    (enough : Enough c phrase (fuel + 1)) : Enough m other fuel := by
  have small : other.cost ≤ 5 := by cases other <;> simp [Phrase.cost]
  have less := past.less
  unfold Enough at *
  omega

theorem Enough.more {c : Cursor} {phrase : Phrase} {fuel : Nat} (enough : Enough c phrase fuel) :
    Enough c phrase (fuel + 1) := Nat.le_succ_of_le enough

/-- A reader that calls another one first leaves it what it takes. -/
theorem Enough.first {c m : Cursor} {phrase other : Phrase} {fuel : Nat} (onward : c.Onward m)
    (enough : Enough c phrase (fuel + 1)) (next : phrase.cost = other.cost + 1) :
    Enough m other fuel := by
  have less := onward.length_le
  unfold Enough at *
  omega

section
variable {o : CompileOptions} {fuel : Nat} {c m k c' : Cursor}

/-! An index, by what stands behind its first term. -/

private theorem run_insideIndex {code : Code} (opening : c.skipBlanks.eat? ['['] = some m)
    (more : m.skipBlanks.eat? [']'] = none)
    (term : (readTerm o true fuel).run m.skipBlanks = .ok (code, k)) :
    (readIndex? o (fuel + 1)).run c = (do
      let index ← do
        if ← Parser.eat ['.', '.'] then
          let last ← readTerm o true fuel
          pure (Accessor.range code last)
        else if ← Parser.eat ['?'] then pure (.optionalIndex code)
        else pure (.index code)
      Parser.expect ']' .bracket
      return some index : Parser (Option Accessor)).run k.skipBlanks := by
  rw [readIndex?, run_skipBlanks_bind, run_bind (run_eat_of_some opening)]
  change (Parser.skipBlanks >>= _ : Parser (Option Accessor)).run m = _
  rw [run_skipBlanks_bind, run_bind (run_eat_of_none more)]
  change (readTerm o true fuel >>= _ : Parser (Option Accessor)).run m.skipBlanks = _
  rw [run_bind term, run_skipBlanks_bind]

theorem run_allContents (opening : c.skipBlanks.eat? ['['] = some m)
    (closing : m.skipBlanks.eat? [']'] = some c') :
    (readIndex? o (fuel + 1)).run c = .ok (some .allContents, c') := by
  rw [readIndex?, run_skipBlanks_bind, run_bind (run_eat_of_some opening)]
  change (Parser.skipBlanks >>= _ : Parser (Option Accessor)).run m = _
  rw [run_skipBlanks_bind, run_bind (run_eat_of_some closing)]
  rfl

section
variable {code : Code} (opening : c.skipBlanks.eat? ['['] = some m)
  (more : m.skipBlanks.eat? [']'] = none)
  (term : (readTerm o true fuel).run m.skipBlanks = .ok (code, k))
include opening more term

theorem run_index (single : k.skipBlanks.eat? ['.', '.'] = none)
    (strict : k.skipBlanks.eat? ['?'] = none) (closing : k.skipBlanks.eat? [']'] = some c') :
    (readIndex? o (fuel + 1)).run c = .ok (some (.index code), c') := by
  rw [run_insideIndex opening more term]
  refine run_eat_bind_eq_ok.mpr (.inr ⟨single, run_eat_bind_eq_ok.mpr (.inr ⟨strict, ?_⟩)⟩)
  refine run_closeIndex_eq_ok.mpr ⟨rfl, ?_⟩
  rwa [Cursor.skipBlanks_skipBlanks]

theorem run_optionalIndex {l : Cursor} (single : k.skipBlanks.eat? ['.', '.'] = none)
    (lenient : k.skipBlanks.eat? ['?'] = some l) (closing : l.skipBlanks.eat? [']'] = some c') :
    (readIndex? o (fuel + 1)).run c = .ok (some (.optionalIndex code), c') := by
  rw [run_insideIndex opening more term]
  refine run_eat_bind_eq_ok.mpr (.inr ⟨single, run_eat_bind_eq_ok.mpr (.inl ⟨_, lenient, ?_⟩)⟩)
  exact run_closeIndex_eq_ok.mpr ⟨rfl, closing⟩

theorem run_range {last : Code} {l n : Cursor} (range : k.skipBlanks.eat? ['.', '.'] = some l)
    (second : (readTerm o true fuel).run l = .ok (last, n))
    (closing : n.skipBlanks.eat? [']'] = some c') :
    (readIndex? o (fuel + 1)).run c = .ok (some (.range code last), c') := by
  rw [run_insideIndex opening more term]
  refine run_eat_bind_eq_ok.mpr (.inl ⟨_, range, run_bind_eq_ok.mpr ⟨_, _, second, ?_⟩⟩)
  exact run_closeIndex_eq_ok.mpr ⟨rfl, closing⟩

end

/-! Parentheses, braces and what is between them. -/

theorem run_cast {t : Ty} {code : Code}
    (cast : castAt? o.registry (c.advance 1) = .ok (some (t, m)))
    (value : (readValue o fuel).run m = .ok (code, c')) :
    (readParen o (fuel + 1)).run c = .ok (code ++ [.cast t], c') := by
  rw [readParen, run_get_bind, run_modify_bind]
  refine run_bind_eq_ok.mpr ⟨_, _, run_findCast_eq_ok.mpr ⟨cast, rfl⟩, Eq.trans run_set_bind ?_⟩
  exact run_bind_eq_ok.mpr ⟨_, _, value, rfl⟩

theorem run_parens {code : Code} (noCast : castAt? o.registry (c.advance 1) = .ok none)
    (term : (readTerm o false fuel).run (c.advance 1) = .ok (code, m))
    (closing : m.skipBlanks.eat? [')'] = some c') :
    (readParen o (fuel + 1)).run c = .ok (code, c') := by
  rw [readParen, run_get_bind, run_modify_bind]
  refine run_bind_eq_ok.mpr ⟨_, _, run_findCast_eq_ok.mpr ⟨noCast, rfl⟩, ?_⟩
  refine run_bind_eq_ok.mpr ⟨_, _, term, ?_⟩
  rw [run_skipBlanks_bind]
  exact run_eat_bind_eq_ok.mpr (.inl ⟨_, closing, rfl⟩)

theorem run_noElements (closing : (c.advance 1).skipBlanks.eat? ['\x7d'] = some c') :
    (readBraces o (fuel + 1)).run c = .ok ([.list 0], c') := by
  rw [readBraces, run_modify_bind, run_skipBlanks_bind]
  exact run_eat_bind_eq_ok.mpr (.inl ⟨_, closing, rfl⟩)

section
variable {code : Code} (more : (c.advance 1).skipBlanks.eat? ['\x7d'] = none)
  (first : (readTerm o false fuel).run (c.advance 1).skipBlanks = .ok (code, m))
include more first

theorem run_entry {value : Code} {l : Cursor} (colon : m.skipBlanks.eat? [':'] = some k)
    (second : (readTerm o false fuel).run k = .ok (value, l))
    (closing : l.skipBlanks.eat? ['\x7d'] = some c') :
    (readBraces o (fuel + 1)).run c = .ok (code ++ value ++ [.entry], c') := by
  rw [readBraces, run_modify_bind, run_skipBlanks_bind]
  refine run_eat_bind_eq_ok.mpr (.inr ⟨more, run_bind_eq_ok.mpr ⟨_, _, first, ?_⟩⟩)
  rw [run_skipBlanks_bind]
  refine run_eat_bind_eq_ok.mpr (.inl ⟨_, colon, run_bind_eq_ok.mpr ⟨_, _, second, ?_⟩⟩)
  exact run_bind_eq_ok.mpr ⟨(), _, run_expect_eq_ok.mpr closing, rfl⟩

theorem run_list {codes : List Code} (noColon : m.skipBlanks.eat? [':'] = none)
    (others : (readElements o fuel).run m.skipBlanks = .ok (codes, k))
    (closing : k.skipBlanks.eat? ['\x7d'] = some c') :
    (readBraces o (fuel + 1)).run c =
      .ok (code ++ codes.flatten ++ [.list (codes.length + 1)], c') := by
  rw [readBraces, run_modify_bind, run_skipBlanks_bind]
  refine run_eat_bind_eq_ok.mpr (.inr ⟨more, run_bind_eq_ok.mpr ⟨_, _, first, ?_⟩⟩)
  rw [run_skipBlanks_bind]
  refine run_eat_bind_eq_ok.mpr (.inr ⟨noColon, run_bind_eq_ok.mpr ⟨_, _, others, ?_⟩⟩)
  exact run_bind_eq_ok.mpr ⟨(), _, run_expect_eq_ok.mpr closing, rfl⟩

end

theorem run_element {code : Code} {codes : List Code} (comma : c.eat? [','] = some m)
    (term : (readTerm o false fuel).run m = .ok (code, k))
    (others : (readElements o fuel).run k.skipBlanks = .ok (codes, c')) :
    (readElements o (fuel + 1)).run c = .ok (code :: codes, c') := by
  refine run_eat_bind_eq_ok.mpr (.inl ⟨_, comma, run_bind_eq_ok.mpr ⟨_, _, term, ?_⟩⟩)
  rw [run_skipBlanks_bind]
  exact run_bind_eq_ok.mpr ⟨_, _, others, rfl⟩

section
variable {code : Code} {opening : Nat} (term : (readTerm o false fuel).run c = .ok (code, m))
include term

theorem run_lastArgument (noComma : m.skipBlanks.eat? [','] = none)
    (closing : m.skipBlanks.eat? [')'] = some c') :
    (readArguments o opening (fuel + 1)).run c = .ok ([code], c') := by
  refine run_bind_eq_ok.mpr ⟨_, _, term, ?_⟩
  rw [run_skipBlanks_bind]
  refine run_eat_bind_eq_ok.mpr (.inr ⟨noComma, ?_⟩)
  exact run_eat_bind_eq_ok.mpr (.inl ⟨_, closing, rfl⟩)

theorem run_argument {codes : List Code} (comma : m.skipBlanks.eat? [','] = some k)
    (others : (readArguments o opening fuel).run k = .ok (codes, c')) :
    (readArguments o opening (fuel + 1)).run c = .ok (code :: codes, c') := by
  refine run_bind_eq_ok.mpr ⟨_, _, term, ?_⟩
  rw [run_skipBlanks_bind]
  refine run_eat_bind_eq_ok.mpr (.inl ⟨_, comma, ?_⟩)
  exact run_bind_eq_ok.mpr ⟨_, _, others, rfl⟩

end

/-! The first character of a value tells which kind it is; the classes of first characters do not
overlap. -/

private theorem ne_of_class {p : Char → Bool} {x y : Char} (holds : p x = true)
    (fails : p y = false) : x ≠ y := by
  rintro rfl
  rw [holds] at fails
  cases fails

private theorem run_constant {p : Parser Value} {v : Value}
    (read : p.run c = .ok (v, c')) :
    (do return [.constant (some (← p))] : Parser Code).run c = .ok ([.constant (some v)], c') :=
  run_bind_eq_ok.mpr ⟨v, c', read, rfl⟩

variable {start : Cursor} {x : Char} (behind : start.skipBlanks = c)
include behind

theorem run_readValue_literal {v : Value} (literal : Literal c v c') :
    (readValue o (fuel + 1)).run start = .ok ([.constant (some v)], c') := by
  rw [readValue, run_skipBlanks_bind, run_get_bind, behind]
  cases literal with
  | signed current sign digits read =>
    rw [current]
    dsimp only
    rw [if_pos (by simp only [digits, sign, Bool.and_true, Bool.or_eq_true, decide_eq_true_eq])]
    exact run_constant read
  | text current read =>
    rw [current]
    exact run_constant read
  | char current read =>
    rw [current]
    exact run_constant read
  | numeral current digits read =>
    rename_i x
    have apart {y : Char} (noDigit : y.isDigit = false) (noPoint : y ≠ '.') : x ≠ y := by
      rcases digits with digit | ⟨rfl, -⟩
      · exact ne_of_class digit noDigit
      · exact noPoint.symm
    have first : (x.isDigit || decide (x = '.') && c.next?.any Char.isDigit) = true := by
      simpa only [Bool.or_eq_true, Bool.and_eq_true, decide_eq_true_eq] using digits
    rw [current]
    simp only [apart (y := '-') rfl (by decide), apart (y := '+') rfl (by decide),
      apart (y := '(') rfl (by decide), apart (y := '\x7b') rfl (by decide),
      apart (y := '"') rfl (by decide), apart (y := '\'') rfl (by decide), first, decide_false,
      Bool.or_self, Bool.false_and, Bool.false_eq_true, if_false, if_true]
    exact run_constant read

theorem run_readValue_negation {code : Code} (minus : c.current? = some '-')
    (noDigits : c.next?.any startsDigits = false)
    (value : (readValue o fuel).run (c.advance 1) = .ok (code, c')) :
    (readValue o (fuel + 1)).run start = .ok (code ++ [.unary .negate], c') := by
  rw [readValue, run_skipBlanks_bind, run_get_bind, behind, minus]
  dsimp only
  rw [if_neg (by simp only [noDigits, Bool.and_false, Bool.false_eq_true, not_false_eq_true]),
    if_pos rfl, run_set_bind]
  exact run_bind_eq_ok.mpr ⟨_, _, value, rfl⟩

theorem run_readValue_paren (opening : c.current? = some '(') :
    (readValue o (fuel + 1)).run start = (readParen o fuel).run c := by
  rw [readValue, run_skipBlanks_bind, run_get_bind, behind, opening]
  rfl

theorem run_readValue_braces (opening : c.current? = some '\x7b') :
    (readValue o (fuel + 1)).run start = (readBraces o fuel).run c := by
  rw [readValue, run_skipBlanks_bind, run_get_bind, behind, opening]
  rfl

theorem run_readValue_named (current : c.current? = some x) (name : isIdStart x = true) :
    (readValue o (fuel + 1)).run start = (readNamed o fuel).run c := by
  have noDigit : x.isDigit = false := by
    simp only [isIdStart, Bool.and_eq_true, Bool.not_eq_true'] at name
    exact name.1.2
  rw [readValue, run_skipBlanks_bind, run_get_bind, behind, current]
  simp only [ne_of_class name (y := '-') (by decide), ne_of_class name (y := '+') (by decide),
    ne_of_class name (y := '(') (by decide), ne_of_class name (y := '\x7b') (by decide),
    ne_of_class name (y := '"') (by decide), ne_of_class name (y := '\'') (by decide),
    ne_of_class name (y := '.') (by decide), noDigit, name, decide_false, Bool.or_self,
    Bool.false_and, Bool.false_eq_true, if_false, if_true]

end

/-- Any fuel will do that is enough for the characters left. -/
theorem runsWith_of_reads {o : CompileOptions} {c c' : Cursor} {phrase : Phrase}
    (reads : Reads o c phrase c') {fuel : Nat} (enough : Enough c phrase fuel) :
    phrase.RunsWith o fuel c c' := by
  -- A part that stands where the phrase starts costs one less than it; any other part stands behind
  -- a character that was taken, which leaves enough for whatever it is.
  induction reads generalizing fuel with
  | term operand _ ihOperand ihOperations =>
    obtain ⟨fuel, rfl⟩ := enough.exists_succ
    refine run_bind_eq_ok.mpr ⟨_, _, ihOperand (enough.first (.refl _) rfl), ?_⟩
    exact run_bind_eq_ok.mpr ⟨_, _, ihOperations (enough.behind (moves_of_reads operand)), rfl⟩
  | noOperation ended =>
    obtain ⟨fuel, rfl⟩ := enough.exists_succ
    change (readOperations _ _ (fuel + 1)).run _ = _
    rw [readOperations_succ, run_skipBlanks_bind, run_get_bind, ended]
    rfl
  | operation operator operand _ ihOperand ihOperations =>
    obtain ⟨fuel, rfl⟩ := enough.exists_succ
    have taken := (Cursor.onward_skipBlanks _).past (past_operator operator)
    have behind := taken.trans (moves_of_reads operand : Cursor.Past _ _).onward
    change (readOperations _ _ (fuel + 1)).run _ = _
    rw [readOperations_succ, run_skipBlanks_bind, run_get_bind, operator]
    refine run_set_bind.trans (run_bind_eq_ok.mpr ⟨_, _, ihOperand (enough.behind taken), ?_⟩)
    exact run_bind_eq_ok.mpr ⟨_, _, ihOperations (enough.behind behind), rfl⟩
  | operand value _ ihValue ihIndices =>
    obtain ⟨fuel, rfl⟩ := enough.exists_succ
    refine run_bind_eq_ok.mpr ⟨_, _, ihValue (enough.first (.refl _) rfl), ?_⟩
    exact run_bind_eq_ok.mpr ⟨_, _, ihIndices (enough.behind (moves_of_reads value)), rfl⟩
  | noIndex ended =>
    obtain ⟨fuel, rfl⟩ := enough.exists_succ
    have another : Enough _ (.index .allContents) fuel := enough.first (.refl _) rfl
    obtain ⟨fuel, rfl⟩ := another.exists_succ
    refine run_bind_eq_ok.mpr ⟨none, _, ?_, rfl⟩
    rw [readIndex?, run_skipBlanks_bind]
    exact run_eat_bind_eq_ok.mpr (.inr ⟨ended, rfl⟩)
  | furtherIndex index _ ihIndex ihIndices =>
    obtain ⟨fuel, rfl⟩ := enough.exists_succ
    refine run_bind_eq_ok.mpr ⟨some _, _, ihIndex (enough.first (.refl _) rfl), ?_⟩
    exact run_bind_eq_ok.mpr ⟨_, _, ihIndices (enough.behind (moves_of_reads index)), rfl⟩
  | allContents opening closing =>
    obtain ⟨fuel, rfl⟩ := enough.exists_succ
    exact run_allContents opening closing
  | index opening more _ single strict closing ihTerm =>
    obtain ⟨fuel, rfl⟩ := enough.exists_succ
    have inside := (Cursor.past_of_blanks_eat? opening).trans (Cursor.onward_skipBlanks _)
    exact run_index opening more (ihTerm (enough.behind inside)) single strict closing
  | optionalIndex opening more _ single lenient closing ihTerm =>
    obtain ⟨fuel, rfl⟩ := enough.exists_succ
    have inside := (Cursor.past_of_blanks_eat? opening).trans (Cursor.onward_skipBlanks _)
    exact run_optionalIndex opening more (ihTerm (enough.behind inside)) single lenient closing
  | range opening more low range _ closing ihLow ihHigh =>
    obtain ⟨fuel, rfl⟩ := enough.exists_succ
    have inside := (Cursor.past_of_blanks_eat? opening).trans (Cursor.onward_skipBlanks _)
    have second := inside.trans ((moves_of_reads low : Cursor.Past _ _).onward.trans
      (Cursor.past_of_blanks_eat? range).onward)
    exact run_range opening more (ihLow (enough.behind inside)) range
      (ihHigh (enough.behind second)) closing
  | value _ ihBare =>
    obtain ⟨fuel, rfl⟩ := enough.exists_succ
    exact ihBare (enough.first (Cursor.onward_skipBlanks _) rfl) _ rfl
  | literal literal => exact fun start behind => run_readValue_literal behind literal
  | negation minus noDigits _ ihValue =>
    obtain ⟨fuel, rfl⟩ := enough.exists_succ
    intro start behind
    have value := ihValue (enough.behind (Cursor.past_of_current? minus)).more
    exact run_readValue_negation behind minus noDigits value
  | cast opening cast _ ihValue =>
    obtain ⟨fuel, rfl⟩ := enough.exists_succ
    intro start behind
    have inside := (Cursor.past_of_current? opening).trans (onward_of_castAt? cast)
    rw [run_readValue_paren behind opening]
    exact run_cast cast (ihValue (enough.behind inside))
  | parens opening noCast _ closing ihTerm =>
    obtain ⟨fuel, rfl⟩ := enough.exists_succ
    intro start behind
    have inside := Cursor.past_of_current? opening
    rw [run_readValue_paren behind opening]
    exact run_parens noCast (ihTerm (enough.behind inside)) closing
  | noElements opening closing =>
    obtain ⟨fuel, rfl⟩ := enough.exists_succ
    intro start behind
    rw [run_readValue_braces behind opening]
    exact run_noElements closing
  | entry opening more first colon _ closing ihFirst ihSecond =>
    obtain ⟨fuel, rfl⟩ := enough.exists_succ
    intro start behind
    have inside := (Cursor.past_of_current? opening).trans (Cursor.onward_skipBlanks _)
    have second := inside.trans ((moves_of_reads first : Cursor.Past _ _).onward.trans
      (Cursor.past_of_blanks_eat? colon).onward)
    rw [run_readValue_braces behind opening]
    exact run_entry more (ihFirst (enough.behind inside)) colon (ihSecond (enough.behind second))
      closing
  | list opening more first noColon _ closing ihFirst ihElements =>
    obtain ⟨fuel, rfl⟩ := enough.exists_succ
    intro start behind
    have inside := (Cursor.past_of_current? opening).trans (Cursor.onward_skipBlanks _)
    have others := inside.trans ((moves_of_reads first : Cursor.Past _ _).onward.trans
      (Cursor.onward_skipBlanks _))
    rw [run_readValue_braces behind opening]
    exact run_list more (ihFirst (enough.behind inside)) noColon
      (ihElements (enough.behind others)) closing
  | noElement ended =>
    obtain ⟨fuel, rfl⟩ := enough.exists_succ
    exact run_eat_bind_eq_ok.mpr (.inr ⟨ended, rfl⟩)
  | element comma term _ ihTerm ihElements =>
    obtain ⟨fuel, rfl⟩ := enough.exists_succ
    have taken := Cursor.past_of_eat? comma
    have behind := taken.trans ((moves_of_reads term : Cursor.Past _ _).onward.trans
      (Cursor.onward_skipBlanks _))
    exact run_element comma (ihTerm (enough.behind taken)) (ihElements (enough.behind behind))
  | noArguments current name opening closing found =>
    obtain ⟨fuel, rfl⟩ := enough.exists_succ
    intro start behind
    rw [run_readValue_named behind current name]
    exact (run_readNamed_call opening).mpr ⟨[], _, found, rfl, .inl ⟨closing, rfl⟩⟩
  | call current name opening more _ found ihArguments =>
    obtain ⟨fuel, rfl⟩ := enough.exists_succ
    intro start behind
    have inside := (past_afterName current name).trans
      ((Cursor.past_of_current? opening).onward.trans (Cursor.onward_skipBlanks _))
    rw [run_readValue_named behind current name]
    refine (run_readNamed_call opening).mpr ⟨_, _, found, rfl, .inr ⟨more, ?_⟩⟩
    exact ihArguments (enough.behind inside) _
  | lastArgument term noComma closing ihTerm =>
    obtain ⟨fuel, rfl⟩ := enough.exists_succ
    exact fun opening => run_lastArgument (ihTerm (enough.first (.refl _) rfl)) noComma closing
  | argument term comma _ ihTerm ihArguments =>
    obtain ⟨fuel, rfl⟩ := enough.exists_succ
    have behind := (moves_of_reads term : Cursor.Past _ _).trans
      (Cursor.past_of_blanks_eat? comma).onward
    exact fun opening => run_argument (ihTerm (enough.first (.refl _) rfl)) comma
      (ihArguments (enough.behind behind) opening)
  | null current name noCall alone null =>
    obtain ⟨fuel, rfl⟩ := enough.exists_succ
    intro start behind
    rw [run_readValue_named behind current name]
    exact (run_readNamed_noCall noCall).mpr (.inl ⟨alone, null, rfl, rfl⟩)
  | loaded current name noCall notNull read =>
    obtain ⟨fuel, rfl⟩ := enough.exists_succ
    intro start behind
    rw [run_readValue_named behind current name]
    exact (run_readNamed_noCall noCall).mpr (.inr ⟨notNull, _, read, rfl⟩)

/-- A text spells code exactly when a term that is read into it stands in the text, with nothing but
blanks behind. -/
theorem parse_eq_ok {o : CompileOptions} {s : String} {code : Code} :
    parse o s = .ok code ↔
      ∃ c', Reads o (.start s) (.term false code) c' ∧ c'.skipBlanks.current? = none := by
  have enough : Enough (.start s) (.term false code) (fuelFor s) := by
    change 8 * s.toList.length + 4 ≤ 8 * (s.length + 1)
    rw [String.length_toList]
    omega
  rw [parse, readAll_eq_ok]
  constructor
  · rintro ⟨c', run, ended⟩
    exact ⟨c', (sound o _).term run, ended⟩
  · rintro ⟨c', reads, ended⟩
    exact ⟨c', runsWith_of_reads reads enough, ended⟩

end Immediate.Expression
