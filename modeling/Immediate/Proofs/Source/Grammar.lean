import Immediate.Proofs.Source.Moving
/-! The grammar of expressions as a relation between places of a text: which phrase stands between
two places, and which code it is read into. The readers read exactly the phrases of the grammar, and
the fuel they are given is always enough for what stands there. -/
namespace Immediate.Expression

open Immediate.Parser

/-- What may stand between two places, with what it is read into. -/
inductive Phrase where
  | term (stopAtRange : Bool) (code : Code)
  | operations (stopAtRange : Bool) (rest : List (BinaryOp × Code))
  | operand (code : Code)
  | indices (accessors : List Accessor)
  | index (accessor : Accessor)
  | value (code : Code)
  /-- A value without blanks before it. -/
  | bare (code : Code)
  /-- The elements of a list behind its first one. -/
  | elements (codes : List Code)
  /-- The arguments of a call up to its closing parenthesis. -/
  | arguments (codes : List Code)

/-- The name at a place. -/
def nameAt (c : Cursor) : List Char := nameChars c.rest

/-- The place behind the name. -/
def afterName (c : Cursor) : Cursor := c.advance (nameAt c).length

theorem onward_afterName (c : Cursor) : c.Onward (afterName c) := c.onward_advance _

theorem run_readName (c : Cursor) : readName.run c = .ok (nameAt c, afterName c) := rfl

/-- A literal stands between two places. -/
inductive Literal : Cursor → Value → Cursor → Prop where
  | signed {c c' : Cursor} {x : Char} {v : Value} (current : c.current? = some x)
      (sign : x = '-' ∨ x = '+') (digits : c.next?.any startsDigits = true)
      (read : Numeral.read.run c = .ok (v, c')) : Literal c v c'
  | numeral {c c' : Cursor} {x : Char} {v : Value} (current : c.current? = some x)
      (digits : x.isDigit = true ∨ (x = '.' ∧ c.next?.any Char.isDigit = true))
      (read : Numeral.read.run c = .ok (v, c')) : Literal c v c'
  | text {c c' : Cursor} {v : Value} (current : c.current? = some '"')
      (read : Quoted.readText.run c = .ok (v, c')) : Literal c v c'
  | char {c c' : Cursor} {v : Value} (current : c.current? = some '\'')
      (read : Quoted.readChar.run c = .ok (v, c')) : Literal c v c'

/-- A phrase stands between two places. -/
inductive Reads (o : CompileOptions) : Cursor → Phrase → Cursor → Prop where
  | term {c m c' : Cursor} {stop : Bool} {first : Code} {rest : List (BinaryOp × Code)}
      (operand : Reads o c (.operand first) m) (operations : Reads o m (.operations stop rest) c') :
      Reads o c (.term stop (.ofChain first rest)) c'
  | noOperation {c : Cursor} {stop : Bool} (ended : operatorAt? stop c.skipBlanks = none) :
      Reads o c (.operations stop []) c.skipBlanks
  | operation {c m c' : Cursor} {stop : Bool} {op : BinaryOp} {code : Code}
      {rest : List (BinaryOp × Code)} (operator : operatorAt? stop c.skipBlanks = some op)
      (operand : Reads o (c.skipBlanks.advance op.symbol.length) (.operand code) m)
      (operations : Reads o m (.operations stop rest) c') :
      Reads o c (.operations stop ((op, code) :: rest)) c'
  | operand {c m c' : Cursor} {code : Code} {accessors : List Accessor}
      (value : Reads o c (.value code) m) (indices : Reads o m (.indices accessors) c') :
      Reads o c (.operand (code ++ accessors.flatMap Accessor.code)) c'
  | noIndex {c : Cursor} (ended : c.skipBlanks.eat? ['['] = none) :
      Reads o c (.indices []) c.skipBlanks
  | furtherIndex {c m c' : Cursor} {a : Accessor} {accessors : List Accessor}
      (index : Reads o c (.index a) m) (indices : Reads o m (.indices accessors) c') :
      Reads o c (.indices (a :: accessors)) c'
  | allContents {c m c' : Cursor} (opening : c.skipBlanks.eat? ['['] = some m)
      (closing : m.skipBlanks.eat? [']'] = some c') : Reads o c (.index .allContents) c'
  | index {c m k c' : Cursor} {code : Code} (opening : c.skipBlanks.eat? ['['] = some m)
      (more : m.skipBlanks.eat? [']'] = none) (term : Reads o m.skipBlanks (.term true code) k)
      (single : k.skipBlanks.eat? ['.', '.'] = none) (strict : k.skipBlanks.eat? ['?'] = none)
      (closing : k.skipBlanks.eat? [']'] = some c') : Reads o c (.index (.index code)) c'
  | optionalIndex {c m k l c' : Cursor} {code : Code} (opening : c.skipBlanks.eat? ['['] = some m)
      (more : m.skipBlanks.eat? [']'] = none) (term : Reads o m.skipBlanks (.term true code) k)
      (single : k.skipBlanks.eat? ['.', '.'] = none) (lenient : k.skipBlanks.eat? ['?'] = some l)
      (closing : l.skipBlanks.eat? [']'] = some c') : Reads o c (.index (.optionalIndex code)) c'
  | range {c m k l n c' : Cursor} {first last : Code} (opening : c.skipBlanks.eat? ['['] = some m)
      (more : m.skipBlanks.eat? [']'] = none) (low : Reads o m.skipBlanks (.term true first) k)
      (range : k.skipBlanks.eat? ['.', '.'] = some l) (high : Reads o l (.term true last) n)
      (closing : n.skipBlanks.eat? [']'] = some c') : Reads o c (.index (.range first last)) c'
  | value {c c' : Cursor} {code : Code} (bare : Reads o c.skipBlanks (.bare code) c') :
      Reads o c (.value code) c'
  | literal {c c' : Cursor} {v : Value} (literal : Literal c v c') :
      Reads o c (.bare [.constant (some v)]) c'
  | negation {c c' : Cursor} {code : Code} (minus : c.current? = some '-')
      (noDigits : c.next?.any startsDigits = false)
      (value : Reads o (c.advance 1) (.value code) c') :
      Reads o c (.bare (code ++ [.unary .negate])) c'
  | cast {c m c' : Cursor} {t : Ty} {code : Code} (opening : c.current? = some '(')
      (cast : castAt? o.registry (c.advance 1) = .ok (some (t, m)))
      (value : Reads o m (.value code) c') : Reads o c (.bare (code ++ [.cast t])) c'
  | parens {c m c' : Cursor} {code : Code} (opening : c.current? = some '(')
      (noCast : castAt? o.registry (c.advance 1) = .ok none)
      (term : Reads o (c.advance 1) (.term false code) m)
      (closing : m.skipBlanks.eat? [')'] = some c') : Reads o c (.bare code) c'
  | noElements {c c' : Cursor} (opening : c.current? = some '\x7b')
      (closing : (c.advance 1).skipBlanks.eat? ['\x7d'] = some c') : Reads o c (.bare [.list 0]) c'
  | entry {c m k l c' : Cursor} {key value : Code} (opening : c.current? = some '\x7b')
      (more : (c.advance 1).skipBlanks.eat? ['\x7d'] = none)
      (first : Reads o (c.advance 1).skipBlanks (.term false key) m)
      (colon : m.skipBlanks.eat? [':'] = some k) (second : Reads o k (.term false value) l)
      (closing : l.skipBlanks.eat? ['\x7d'] = some c') :
      Reads o c (.bare (key ++ value ++ [.entry])) c'
  | list {c m k c' : Cursor} {code : Code} {codes : List Code} (opening : c.current? = some '\x7b')
      (more : (c.advance 1).skipBlanks.eat? ['\x7d'] = none)
      (first : Reads o (c.advance 1).skipBlanks (.term false code) m)
      (noColon : m.skipBlanks.eat? [':'] = none)
      (elements : Reads o m.skipBlanks (.elements codes) k)
      (closing : k.skipBlanks.eat? ['\x7d'] = some c') :
      Reads o c (.bare (code ++ codes.flatten ++ [.list (codes.length + 1)])) c'
  | noElement {c : Cursor} (ended : c.eat? [','] = none) : Reads o c (.elements []) c
  | element {c m k c' : Cursor} {code : Code} {codes : List Code} (comma : c.eat? [','] = some m)
      (term : Reads o m (.term false code) k)
      (elements : Reads o k.skipBlanks (.elements codes) c') :
      Reads o c (.elements (code :: codes)) c'
  | noArguments {c c' : Cursor} {x : Char} {b : Builtin} (current : c.current? = some x)
      (name : isIdStart x = true) (opening : (afterName c).current? = some '(')
      (closing : ((afterName c).advance 1).skipBlanks.eat? [')'] = some c')
      (found : Builtin.find? (String.ofList (nameAt c)) 0 = some b) :
      Reads o c (.bare [.call b 0]) c'
  | call {c c' : Cursor} {x : Char} {codes : List Code} {b : Builtin}
      (current : c.current? = some x) (name : isIdStart x = true)
      (opening : (afterName c).current? = some '(')
      (more : ((afterName c).advance 1).skipBlanks.eat? [')'] = none)
      (arguments : Reads o ((afterName c).advance 1).skipBlanks (.arguments codes) c')
      (found : Builtin.find? (String.ofList (nameAt c)) codes.length = some b) :
      Reads o c (.bare (codes.flatten ++ [.call b codes.length])) c'
  | lastArgument {c m c' : Cursor} {code : Code} (term : Reads o c (.term false code) m)
      (noComma : m.skipBlanks.eat? [','] = none) (closing : m.skipBlanks.eat? [')'] = some c') :
      Reads o c (.arguments [code]) c'
  | argument {c m k c' : Cursor} {code : Code} {codes : List Code}
      (term : Reads o c (.term false code) m) (comma : m.skipBlanks.eat? [','] = some k)
      (arguments : Reads o k (.arguments codes) c') : Reads o c (.arguments (code :: codes)) c'
  | null {c : Cursor} {x : Char} (current : c.current? = some x) (name : isIdStart x = true)
      (noCall : (afterName c).current? ≠ some '(') (alone : isQualified (afterName c) = false)
      (null : nameAt c = "null".toList) : Reads o c (.bare [.constant none]) (afterName c)
  | loaded {c c' : Cursor} {x : Char} {id : VariableId} (current : c.current? = some x)
      (name : isIdStart x = true) (noCall : (afterName c).current? ≠ some '(')
      (notNull : isQualified (afterName c) = true ∨ nameAt c ≠ "null".toList)
      (read : (readVariable o (nameAt c) c.offset).run (afterName c) = .ok (id, c')) :
      Reads o c (.bare [.variable id]) c'

/-! ### Phrases lead onward -/

theorem past_of_literal {c c' : Cursor} {v : Value} (literal : Literal c v c') : c.Past c' := by
  cases literal with
  | signed _ _ _ read => exact (Numeral.through_read read).2
  | numeral _ _ read => exact (Numeral.through_read read).2
  | text current read => exact Quoted.takes_readText (Cursor.rest_ne_nil current) v c' read
  | char current read => exact Quoted.takes_readChar (Cursor.rest_ne_nil current) v c' read

theorem isPrefixOf_of_operatorAt? {stop : Bool} {c : Cursor} {op : BinaryOp}
    (operator : operatorAt? stop c = some op) : op.symbol.toList <+: c.rest := by
  obtain ⟨found, -⟩ := Option.filter_eq_some_iff.mp operator
  have starts := List.find?_some found
  exact List.isPrefixOf_iff_prefix.mp starts

/-- An operator is passed by as many characters as by bytes. -/
theorem readOperations_succ (o : CompileOptions) (stop : Bool) (fuel : Nat) :
    readOperations o stop (fuel + 1) = (do
      Parser.skipBlanks
      let cursor ← get
      match operatorAt? stop cursor with
      | none => return []
      | some op =>
        set (cursor.advance op.symbol.length)
        let operand ← readOperand o fuel
        let rest ← readOperations o stop fuel
        return (op, operand) :: rest) := by
  rw [readOperations]
  refine congrArg (Parser.skipBlanks >>= ·) (funext fun _ => congrArg (get >>= ·) (funext fun c => ?_))
  cases operator : operatorAt? stop c with
  | none => rfl
  | some op =>
    dsimp only
    rw [Cursor.advanceBytes_of_prefix (isPrefixOf_of_operatorAt? operator)]
    rfl

/-- Where no operator's first character stands, no operator does. -/
theorem operatorAt?_eq_none {c : Cursor} (stop : Bool)
    (other : ∀ op : BinaryOp, c.current? ≠ op.symbol.toList.head?) : operatorAt? stop c = none := by
  cases operator : operatorAt? stop c with
  | none => rfl
  | some op =>
    obtain ⟨rest, equal⟩ := isPrefixOf_of_operatorAt? operator
    refine absurd ?_ (other op)
    rw [Cursor.current?, ← equal]
    cases op <;> rfl

theorem past_operator {stop : Bool} {c : Cursor} {op : BinaryOp}
    (operator : operatorAt? stop c = some op) : c.Past (c.advance op.symbol.length) := by
  have starts := isPrefixOf_of_operatorAt? operator
  refine c.past_advance ?_ ?_
  · cases op <;> decide
  · intro ended
    rw [ended, List.prefix_nil] at starts
    cases op <;> cases starts

theorem past_afterName {c : Cursor} {x : Char} (current : c.current? = some x)
    (name : isIdStart x = true) : c.Past (afterName c) := by
  obtain ⟨offset, rest⟩ := c
  cases rest with
  | nil => cases current
  | cons y rest =>
    cases current
    refine Cursor.past_advance _ ?_ (List.cons_ne_nil x rest)
    have notPoint : x ≠ '.' := by
      intro point
      rw [point] at name
      cases name
    have inName : isIdChar x = true := by
      simp only [isIdStart, Bool.and_eq_true] at name
      exact name.1.1
    unfold nameAt nameChars
    split
    · rename_i equal
      exact absurd (List.cons.inj equal).1 notPoint
    · rename_i equal
      cases equal
      rw [if_pos inName]
      exact Nat.succ_pos _
    · rename_i impossible
      cases impossible

/-- The place after a phrase lies behind the place before it, or at it where nothing need stand. -/
def Phrase.Moves (c c' : Cursor) : Phrase → Prop
  | .operations .. | .indices _ | .elements _ => c.Onward c'
  | _ => c.Past c'

theorem moves_of_reads {o : CompileOptions} {c c' : Cursor} {phrase : Phrase}
    (reads : Reads o c phrase c') : phrase.Moves c c' := by
  induction reads with
  | term _ _ operand operations => exact operand.trans operations
  | noOperation => exact Cursor.onward_skipBlanks _
  | operation operator _ _ operand operations =>
    have taken := (Cursor.onward_skipBlanks _).past (past_operator operator)
    exact (taken.trans (operand.onward.trans operations)).onward
  | operand _ _ value indices => exact value.trans indices
  | noIndex => exact Cursor.onward_skipBlanks _
  | furtherIndex _ _ index indices => exact index.onward.trans indices
  | allContents opening closing =>
    exact (Cursor.past_of_blanks_eat? opening).trans (Cursor.past_of_blanks_eat? closing).onward
  | index opening _ _ _ _ closing term =>
    have inside := (Cursor.onward_skipBlanks _).trans term.onward
    have behind := inside.trans (Cursor.past_of_blanks_eat? closing).onward
    exact (Cursor.past_of_blanks_eat? opening).trans behind
  | optionalIndex opening _ _ _ lenient closing term =>
    have inside := (Cursor.onward_skipBlanks _).trans term.onward
    have marked := inside.trans (Cursor.past_of_blanks_eat? lenient).onward
    have behind := marked.trans (Cursor.past_of_blanks_eat? closing).onward
    exact (Cursor.past_of_blanks_eat? opening).trans behind
  | range opening _ _ range _ closing low high =>
    have inside := (Cursor.onward_skipBlanks _).trans low.onward
    have second := inside.trans ((Cursor.past_of_blanks_eat? range).onward.trans high.onward)
    have behind := second.trans (Cursor.past_of_blanks_eat? closing).onward
    exact (Cursor.past_of_blanks_eat? opening).trans behind
  | value _ bare => exact (Cursor.onward_skipBlanks _).past bare
  | literal literal => exact past_of_literal literal
  | negation minus _ _ value => exact (Cursor.past_of_current? minus).trans value.onward
  | cast opening cast _ value =>
    have inside := (onward_of_castAt? cast).trans value.onward
    exact (Cursor.past_of_current? opening).trans inside
  | parens opening _ _ closing term =>
    have behind := term.onward.trans (Cursor.past_of_blanks_eat? closing).onward
    exact (Cursor.past_of_current? opening).trans behind
  | noElements opening closing =>
    exact (Cursor.past_of_current? opening).trans (Cursor.past_of_blanks_eat? closing).onward
  | entry opening _ _ colon _ closing first second =>
    have inside := (Cursor.onward_skipBlanks _).trans first.onward
    have other := inside.trans ((Cursor.past_of_blanks_eat? colon).onward.trans second.onward)
    have behind := other.trans (Cursor.past_of_blanks_eat? closing).onward
    exact (Cursor.past_of_current? opening).trans behind
  | list opening _ _ _ _ closing first elements =>
    have inside := (Cursor.onward_skipBlanks _).trans first.onward
    have others := inside.trans ((Cursor.onward_skipBlanks _).trans elements)
    have behind := others.trans (Cursor.past_of_blanks_eat? closing).onward
    exact (Cursor.past_of_current? opening).trans behind
  | noElement => exact .refl _
  | element comma _ _ term elements =>
    have taken := (Cursor.past_of_eat? comma).onward.trans term.onward
    exact taken.trans ((Cursor.onward_skipBlanks _).trans elements)
  | noArguments current name opening closing =>
    have inside := (past_afterName current name).trans (Cursor.past_of_current? opening).onward
    exact inside.trans (Cursor.past_of_blanks_eat? closing).onward
  | call current name opening _ _ _ arguments =>
    have inside := (past_afterName current name).trans (Cursor.past_of_current? opening).onward
    exact inside.trans ((Cursor.onward_skipBlanks _).trans arguments.onward)
  | lastArgument _ _ closing term => exact term.trans (Cursor.past_of_blanks_eat? closing).onward
  | argument _ comma _ term arguments =>
    exact term.trans ((Cursor.past_of_blanks_eat? comma).onward.trans arguments.onward)
  | null current name => exact past_afterName current name
  | loaded current name _ _ read =>
    have further := takesOnly_readVariable _ _ _ _ _ _ read
    exact (past_afterName current name).trans further.onward

variable {o : CompileOptions} {c c' m : Cursor} {code : Code}

/-! ### How phrases start -/

theorem start_of_literal {v : Value} (literal : Literal c v c') : ∃ x, c.current? = some x ∧
    (x ∈ ['-', '+', '"', '\''] ∨ x.isDigit = true ∨
      (x = '.' ∧ c.next?.any Char.isDigit = true)) := by
  cases literal with
  | signed current sign =>
    exact ⟨_, current, .inl (by rcases sign with rfl | rfl <;> decide)⟩
  | numeral current digits => exact ⟨_, current, .inr digits⟩
  | text current | char current => exact ⟨_, current, .inl (by decide)⟩

theorem start_of_bare (bare : Reads o c (.bare code) c') : ∃ x, c.current? = some x ∧
    (x ∈ ['-', '+', '"', '\'', '(', '\x7b'] ∨ x.isDigit = true ∨
      (x = '.' ∧ c.next?.any Char.isDigit = true) ∨ isIdStart x = true) := by
  cases bare with
  | literal literal =>
    obtain ⟨x, current, mark | digits | point⟩ := start_of_literal literal
    · exact ⟨x, current, .inl (List.mem_append_left ['(', '\x7b'] mark)⟩
    · exact ⟨x, current, .inr (.inl digits)⟩
    · exact ⟨x, current, .inr (.inr (.inl point))⟩
  | negation current | cast current | parens current | noElements current | entry current
  | list current => exact ⟨_, current, .inl (by decide)⟩
  | noArguments current name | call current name | null current name | loaded current name =>
    exact ⟨_, current, .inr (.inr (.inr name))⟩

/-! ### Phrases with nothing behind them -/

theorem operand_of_value (value : Reads o c (.value code) m)
    (noIndex : m.skipBlanks.eat? ['['] = none) : Reads o c (.operand code) m.skipBlanks := by
  simpa using Reads.operand value (.noIndex noIndex)

theorem term_of_operand (operand : Reads o c (.operand code) m)
    (ended : operatorAt? false m.skipBlanks = none) :
    Reads o c (.term false code) m.skipBlanks := by
  simpa [Code.ofChain, Code.weave] using Reads.term operand (.noOperation ended)

end Immediate.Expression
