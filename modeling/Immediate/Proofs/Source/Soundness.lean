import Immediate.Proofs.Source.Grammar
/-! The readers read nothing but phrases of the grammar. Whatever fuel a reader was given, a run of
it that succeeds has read a phrase: each reader is taken apart once, given that those it calls read
phrases with less fuel. -/
namespace Immediate.Expression

open Immediate.Parser

/-- An index ends with its bracket. -/
theorem run_closeIndex_eq_ok {a : Accessor} {a? : Option Accessor} {c c' : Cursor} :
    (do Parser.expect ']' .bracket; return some a : Parser (Option Accessor)).run c = .ok (a?, c') ↔
      a? = some a ∧ c.skipBlanks.eat? [']'] = some c' := by
  constructor
  · intro run
    obtain ⟨_, k, closing, run⟩ := run_bind_eq_ok.mp run
    obtain ⟨rfl, rfl⟩ := run_pure_eq_ok.mp run
    exact ⟨rfl, run_expect_eq_ok.mp closing⟩
  · rintro ⟨rfl, closing⟩
    exact run_bind_eq_ok.mpr ⟨(), _, run_expect_eq_ok.mpr closing, rfl⟩

/-! A name is a call where a parenthesis stands behind it; elsewhere it is null or a variable. -/

section
variable {o : CompileOptions} {fuel : Nat} {c c' : Cursor} {code : Code}

theorem run_readNamed_call (opening : (afterName c).current? = some '(') :
    (readNamed o (fuel + 1)).run c = .ok (code, c') ↔
      ∃ codes b, Builtin.find? (String.ofList (nameAt c)) codes.length = some b ∧
        code = codes.flatten ++ [.call b codes.length] ∧
        ((((afterName c).advance 1).skipBlanks.eat? [')'] = some c' ∧ codes = []) ∨
          (((afterName c).advance 1).skipBlanks.eat? [')'] = none ∧
            (readArguments o (afterName c).offset fuel).run ((afterName c).advance 1).skipBlanks =
              .ok (codes, c'))) := by
  rw [readNamed, run_get_bind]
  change (readName >>= _ : Parser Code).run c = _ ↔ _
  rw [run_bind (run_readName c), run_get_bind]
  rw [if_pos opening, run_set_bind, run_skipBlanks_bind]
  constructor
  · intro run
    rcases run_eat_bind_eq_ok.mp run with ⟨k, closing, run⟩ | ⟨more, run⟩
    · obtain ⟨codes, m, empty, run⟩ := run_bind_eq_ok.mp run
      obtain ⟨rfl, rfl⟩ := run_pure_eq_ok.mp empty
      dsimp only at run
      split at run
      · rename_i b found
        cases run
        exact ⟨[], b, found, rfl, .inl ⟨closing, rfl⟩⟩
      · cases run
    · obtain ⟨codes, k, arguments, run⟩ := run_bind_eq_ok.mp run
      dsimp only at run
      split at run
      · rename_i b found
        cases run
        exact ⟨codes, b, found, rfl, .inr ⟨more, arguments⟩⟩
      · cases run
  · rintro ⟨codes, b, found, rfl, ⟨closing, rfl⟩ | ⟨more, arguments⟩⟩
    · refine run_eat_bind_eq_ok.mpr (.inl ⟨c', closing, run_bind_eq_ok.mpr ⟨[], c', rfl, ?_⟩⟩)
      dsimp only
      rw [found]
      rfl
    · refine run_eat_bind_eq_ok.mpr (.inr ⟨more, run_bind_eq_ok.mpr ⟨codes, c', arguments, ?_⟩⟩)
      dsimp only
      rw [found]
      rfl

theorem run_readNamed_noCall (noCall : (afterName c).current? ≠ some '(') :
    (readNamed o (fuel + 1)).run c = .ok (code, c') ↔
      (isQualified (afterName c) = false ∧ nameAt c = "null".toList ∧ code = [.constant none] ∧
        c' = afterName c) ∨
      ((isQualified (afterName c) = true ∨ nameAt c ≠ "null".toList) ∧
        ∃ id, (readVariable o (nameAt c) c.offset).run (afterName c) = .ok (id, c') ∧
          code = [.variable id]) := by
  rw [readNamed, run_get_bind]
  change (readName >>= _ : Parser Code).run c = _ ↔ _
  rw [run_bind (run_readName c), run_get_bind]
  rw [if_neg noCall]
  by_cases null : isQualified (afterName c) = false ∧ nameAt c = "null".toList
  · rw [if_pos (by simpa using null), run_pure_eq_ok]
    constructor
    · rintro ⟨rfl, rfl⟩
      exact .inl ⟨null.1, null.2, rfl, rfl⟩
    · rintro (⟨-, -, rfl, rfl⟩ | ⟨qualified | other, -⟩)
      · exact ⟨rfl, rfl⟩
      · simp [null.1] at qualified
      · exact absurd null.2 other
  · rw [if_neg (by simpa using null), run_bind_eq_ok]
    constructor
    · rintro ⟨id, k, read, run⟩
      obtain ⟨rfl, rfl⟩ := run_pure_eq_ok.mp run
      refine .inr ⟨?_, id, read, rfl⟩
      cases alone : isQualified (afterName c) with
      | true => exact .inl rfl
      | false => exact .inr fun isNull => null ⟨alone, isNull⟩
    · rintro (⟨alone, isNull, -⟩ | ⟨-, id, read, rfl⟩)
      · exact absurd ⟨alone, isNull⟩ null
      · exact ⟨id, c', read, rfl⟩

end

/-- Readers with this fuel read phrases. -/
structure Sound (o : CompileOptions) (fuel : Nat) : Prop where
  term {stop c code c'} : (readTerm o stop fuel).run c = .ok (code, c') →
    Reads o c (.term stop code) c'
  operations {stop c rest c'} : (readOperations o stop fuel).run c = .ok (rest, c') →
    Reads o c (.operations stop rest) c'
  operand {c code c'} : (readOperand o fuel).run c = .ok (code, c') → Reads o c (.operand code) c'
  indices {c accessors c'} : (readIndices o fuel).run c = .ok (accessors, c') →
    Reads o c (.indices accessors) c'
  index {c a c'} : (readIndex? o fuel).run c = .ok (some a, c') → Reads o c (.index a) c'
  noIndex {c c'} : (readIndex? o fuel).run c = .ok (none, c') →
    c.skipBlanks.eat? ['['] = none ∧ c' = c.skipBlanks
  value {c code c'} : (readValue o fuel).run c = .ok (code, c') → Reads o c (.value code) c'
  paren {c code c'} : (readParen o fuel).run c = .ok (code, c') → c.current? = some '(' →
    Reads o c (.bare code) c'
  braces {c code c'} : (readBraces o fuel).run c = .ok (code, c') → c.current? = some '\x7b' →
    Reads o c (.bare code) c'
  elements {c codes c'} : (readElements o fuel).run c = .ok (codes, c') →
    Reads o c (.elements codes) c'
  named {c x code c'} : (readNamed o fuel).run c = .ok (code, c') → c.current? = some x →
    isIdStart x = true → Reads o c (.bare code) c'
  arguments {opening c codes c'} : (readArguments o opening fuel).run c = .ok (codes, c') →
    Reads o c (.arguments codes) c'

namespace Sound

variable {o : CompileOptions} {fuel : Nat} (below : Sound o fuel) {c c' : Cursor} {code : Code}
include below

theorem succ_term {stop : Bool} (run : (readTerm o stop (fuel + 1)).run c = .ok (code, c')) :
    Reads o c (.term stop code) c' := by
  obtain ⟨first, m, operand, run⟩ := run_bind_eq_ok.mp run
  obtain ⟨rest, k, operations, run⟩ := run_bind_eq_ok.mp run
  obtain ⟨rfl, rfl⟩ := run_pure_eq_ok.mp run
  exact .term (below.operand operand) (below.operations operations)

theorem succ_operations {stop : Bool} {rest : List (BinaryOp × Code)}
    (run : (readOperations o stop (fuel + 1)).run c = .ok (rest, c')) :
    Reads o c (.operations stop rest) c' := by
  rw [readOperations_succ, run_skipBlanks_bind, run_get_bind] at run
  split at run
  · rename_i ended
    obtain ⟨rfl, rfl⟩ := run_pure_eq_ok.mp run
    exact .noOperation ended
  · rename_i op operator
    rw [run_set_bind] at run
    obtain ⟨operand, m, ranOperand, run⟩ := run_bind_eq_ok.mp run
    obtain ⟨others, k, ranOthers, run⟩ := run_bind_eq_ok.mp run
    obtain ⟨rfl, rfl⟩ := run_pure_eq_ok.mp run
    exact .operation operator (below.operand ranOperand) (below.operations ranOthers)

theorem succ_operand (run : (readOperand o (fuel + 1)).run c = .ok (code, c')) :
    Reads o c (.operand code) c' := by
  obtain ⟨value, m, ranValue, run⟩ := run_bind_eq_ok.mp run
  obtain ⟨indices, k, ranIndices, run⟩ := run_bind_eq_ok.mp run
  obtain ⟨rfl, rfl⟩ := run_pure_eq_ok.mp run
  exact .operand (below.value ranValue) (below.indices ranIndices)

theorem succ_indices {accessors : List Accessor}
    (run : (readIndices o (fuel + 1)).run c = .ok (accessors, c')) :
    Reads o c (.indices accessors) c' := by
  obtain ⟨index?, m, ranIndex, run⟩ := run_bind_eq_ok.mp run
  cases index? with
  | none =>
    obtain ⟨rfl, rfl⟩ := run_pure_eq_ok.mp run
    obtain ⟨ended, rfl⟩ := below.noIndex ranIndex
    exact .noIndex ended
  | some a =>
    obtain ⟨others, k, ranOthers, run⟩ := run_bind_eq_ok.mp run
    obtain ⟨rfl, rfl⟩ := run_pure_eq_ok.mp run
    exact .furtherIndex (below.index ranIndex) (below.indices ranOthers)

theorem succ_index {a? : Option Accessor}
    (run : (readIndex? o (fuel + 1)).run c = .ok (a?, c')) :
    (∃ a, a? = some a ∧ Reads o c (.index a) c') ∨
      (a? = none ∧ c.skipBlanks.eat? ['['] = none ∧ c' = c.skipBlanks) := by
  rw [readIndex?, run_skipBlanks_bind] at run
  rcases run_eat_bind_eq_ok.mp run with ⟨m, opening, run⟩ | ⟨missing, run⟩
  · refine .inl ?_
    change (Parser.skipBlanks >>= _ : Parser (Option Accessor)).run m = _ at run
    rw [run_skipBlanks_bind] at run
    rcases run_eat_bind_eq_ok.mp run with ⟨k, closing, run⟩ | ⟨more, run⟩
    · obtain ⟨rfl, rfl⟩ := run_pure_eq_ok.mp run
      exact ⟨_, rfl, .allContents opening closing⟩
    · obtain ⟨first, k, term, run⟩ := run_bind_eq_ok.mp run
      have first := below.term term
      rw [run_skipBlanks_bind] at run
      rcases run_eat_bind_eq_ok.mp run with ⟨l, range, run⟩ | ⟨single, run⟩
      · obtain ⟨last, n, second, run⟩ := run_bind_eq_ok.mp run
        obtain ⟨rfl, closing⟩ := run_closeIndex_eq_ok.mp run
        exact ⟨_, rfl, .range opening more first range (below.term second) closing⟩
      · rcases run_eat_bind_eq_ok.mp run with ⟨l, lenient, run⟩ | ⟨strict, run⟩
        · obtain ⟨rfl, closing⟩ := run_closeIndex_eq_ok.mp run
          exact ⟨_, rfl, .optionalIndex opening more first single lenient closing⟩
        · obtain ⟨rfl, closing⟩ := run_closeIndex_eq_ok.mp run
          rw [Cursor.skipBlanks_skipBlanks] at closing
          exact ⟨_, rfl, .index opening more first single strict closing⟩
  · obtain ⟨rfl, rfl⟩ := run_pure_eq_ok.mp run
    exact .inr ⟨rfl, missing, rfl⟩

theorem succ_paren (run : (readParen o (fuel + 1)).run c = .ok (code, c'))
    (opening : c.current? = some '(') : Reads o c (.bare code) c' := by
  rw [readParen, run_get_bind, run_modify_bind] at run
  obtain ⟨cast?, m, probed, run⟩ := run_bind_eq_ok.mp run
  obtain ⟨cast, rfl⟩ := run_findCast_eq_ok.mp probed
  cases cast? with
  | some found =>
    obtain ⟨t, after⟩ := found
    change (set after >>= _ : Parser Code).run _ = _ at run
    rw [run_set_bind] at run
    obtain ⟨value, k, ranValue, run⟩ := run_bind_eq_ok.mp run
    obtain ⟨rfl, rfl⟩ := run_pure_eq_ok.mp run
    exact .cast opening cast (below.value ranValue)
  | none =>
    obtain ⟨term, k, ranTerm, run⟩ := run_bind_eq_ok.mp run
    rw [run_skipBlanks_bind] at run
    rcases run_eat_bind_eq_ok.mp run with ⟨l, closing, run⟩ | ⟨-, impossible⟩
    · obtain ⟨rfl, rfl⟩ := run_pure_eq_ok.mp run
      exact .parens opening cast (below.term ranTerm) closing
    · cases impossible

theorem succ_braces (run : (readBraces o (fuel + 1)).run c = .ok (code, c'))
    (opening : c.current? = some '\x7b') : Reads o c (.bare code) c' := by
  rw [readBraces, run_modify_bind, run_skipBlanks_bind] at run
  rcases run_eat_bind_eq_ok.mp run with ⟨m, closing, run⟩ | ⟨more, run⟩
  · obtain ⟨rfl, rfl⟩ := run_pure_eq_ok.mp run
    exact .noElements opening closing
  · obtain ⟨first, m, ranFirst, run⟩ := run_bind_eq_ok.mp run
    rw [run_skipBlanks_bind] at run
    rcases run_eat_bind_eq_ok.mp run with ⟨k, colon, run⟩ | ⟨noColon, run⟩
    · obtain ⟨second, l, ranSecond, run⟩ := run_bind_eq_ok.mp run
      obtain ⟨_, n, closing, run⟩ := run_bind_eq_ok.mp run
      obtain ⟨rfl, rfl⟩ := run_pure_eq_ok.mp run
      exact .entry opening more (below.term ranFirst) colon (below.term ranSecond)
        (run_expect_eq_ok.mp closing)
    · obtain ⟨others, l, ranOthers, run⟩ := run_bind_eq_ok.mp run
      obtain ⟨_, n, closing, run⟩ := run_bind_eq_ok.mp run
      obtain ⟨rfl, rfl⟩ := run_pure_eq_ok.mp run
      exact .list opening more (below.term ranFirst) noColon (below.elements ranOthers)
        (run_expect_eq_ok.mp closing)

theorem succ_elements {codes : List Code}
    (run : (readElements o (fuel + 1)).run c = .ok (codes, c')) :
    Reads o c (.elements codes) c' := by
  rw [readElements] at run
  rcases run_eat_bind_eq_ok.mp run with ⟨m, comma, run⟩ | ⟨ended, run⟩
  · obtain ⟨first, k, ranFirst, run⟩ := run_bind_eq_ok.mp run
    rw [run_skipBlanks_bind] at run
    obtain ⟨others, l, ranOthers, run⟩ := run_bind_eq_ok.mp run
    obtain ⟨rfl, rfl⟩ := run_pure_eq_ok.mp run
    exact .element comma (below.term ranFirst) (below.elements ranOthers)
  · obtain ⟨rfl, rfl⟩ := run_pure_eq_ok.mp run
    exact .noElement ended

theorem succ_arguments {opening : Nat} {codes : List Code}
    (run : (readArguments o opening (fuel + 1)).run c = .ok (codes, c')) :
    Reads o c (.arguments codes) c' := by
  obtain ⟨first, m, ranFirst, run⟩ := run_bind_eq_ok.mp run
  rw [run_skipBlanks_bind] at run
  rcases run_eat_bind_eq_ok.mp run with ⟨k, comma, run⟩ | ⟨noComma, run⟩
  · obtain ⟨others, l, ranOthers, run⟩ := run_bind_eq_ok.mp run
    obtain ⟨rfl, rfl⟩ := run_pure_eq_ok.mp run
    exact .argument (below.term ranFirst) comma (below.arguments ranOthers)
  · rcases run_eat_bind_eq_ok.mp run with ⟨k, closing, run⟩ | ⟨-, impossible⟩
    · obtain ⟨rfl, rfl⟩ := run_pure_eq_ok.mp run
      exact .lastArgument (below.term ranFirst) noComma closing
    · cases impossible

theorem succ_named {x : Char} (run : (readNamed o (fuel + 1)).run c = .ok (code, c'))
    (current : c.current? = some x) (name : isIdStart x = true) : Reads o c (.bare code) c' := by
  by_cases opening : (afterName c).current? = some '('
  · obtain ⟨codes, b, found, rfl, given⟩ := (run_readNamed_call opening).mp run
    rcases given with ⟨closing, rfl⟩ | ⟨more, arguments⟩
    · exact .noArguments current name opening closing found
    · exact .call current name opening more (below.arguments arguments) found
  · rcases (run_readNamed_noCall opening).mp run with ⟨alone, null, rfl, rfl⟩ | ⟨notNull, given⟩
    · exact .null current name opening alone null
    · obtain ⟨id, read, rfl⟩ := given
      exact .loaded current name opening notNull read

theorem succ_value (run : (readValue o (fuel + 1)).run c = .ok (code, c')) :
    Reads o c (.value code) c' := by
  rw [readValue, run_skipBlanks_bind, run_get_bind] at run
  refine .value ?_
  cases current : c.skipBlanks.current? with
  | none =>
    rw [current] at run
    cases run
  | some x =>
    rw [current] at run
    dsimp only at run
    have constant {p : Parser Value}
        (run : (do return [.constant (some (← p))] : Parser Code).run c.skipBlanks =
          .ok (code, c')) :
        ∃ v, p.run c.skipBlanks = .ok (v, c') ∧ code = [.constant (some v)] := by
      obtain ⟨v, k, ran, run⟩ := run_bind_eq_ok.mp run
      obtain ⟨rfl, rfl⟩ := run_pure_eq_ok.mp run
      exact ⟨v, ran, rfl⟩
    -- The cases follow the order in which the first character is looked at.
    split at run
    · rename_i signed
      simp only [Bool.and_eq_true, Bool.or_eq_true, decide_eq_true_eq] at signed
      obtain ⟨v, read, rfl⟩ := constant run
      exact .literal (.signed current signed.1 signed.2 read)
    rename_i unsigned
    split at run
    · rename_i minus
      rw [minus] at current unsigned
      rw [run_set_bind] at run
      obtain ⟨value, k, ranValue, run⟩ := run_bind_eq_ok.mp run
      obtain ⟨rfl, rfl⟩ := run_pure_eq_ok.mp run
      exact .negation current (by simpa using unsigned) (below.value ranValue)
    split at run
    · rename_i opening
      rw [opening] at current
      exact below.paren run current
    split at run
    · rename_i opening
      rw [opening] at current
      exact below.braces run current
    split at run
    · rename_i quote
      rw [quote] at current
      obtain ⟨v, read, rfl⟩ := constant run
      exact .literal (.text current read)
    split at run
    · rename_i quote
      rw [quote] at current
      obtain ⟨v, read, rfl⟩ := constant run
      exact .literal (.char current read)
    split at run
    · rename_i digits
      simp only [Bool.and_eq_true, Bool.or_eq_true, decide_eq_true_eq] at digits
      obtain ⟨v, read, rfl⟩ := constant run
      exact .literal (.numeral current digits read)
    split at run
    · rename_i name
      exact below.named run current name
    · cases run

end Sound

/-- Whatever the fuel, what is read is a phrase. -/
theorem sound (o : CompileOptions) (fuel : Nat) : Sound o fuel := by
  induction fuel with
  | zero => constructor <;> exact nofun
  | succ fuel below =>
    refine {
      term := below.succ_term
      operations := below.succ_operations
      operand := below.succ_operand
      indices := below.succ_indices
      index := fun run => ?_
      noIndex := fun run => ?_
      value := below.succ_value
      paren := below.succ_paren
      braces := below.succ_braces
      elements := below.succ_elements
      named := below.succ_named
      arguments := below.succ_arguments }
    · rcases below.succ_index run with ⟨a, equal, index⟩ | ⟨impossible, -⟩
      · cases equal
        exact index
      · cases impossible
    · rcases below.succ_index run with ⟨a, impossible, -⟩ | ⟨-, ended⟩
      · cases impossible
      · exact ended

end Immediate.Expression
