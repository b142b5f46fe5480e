import Immediate.Proofs.Source.Grammar
/-! What no operand gets past. Where only characters of types stand before a closing parenthesis, a
single angle bracket or an angle bracket that ends a text, whatever is read from there ends before
it: operands are words there, and the only operators are shifts. A type that is read with children
ends with such a bracket. -/
namespace Immediate

open Immediate.Parser

namespace TypeName

variable {registry : Registry} {fuel : Nat} {c m : Cursor}

theorem closed_of_readChildren {children : List (Option Ty)}
    (run : (readChildren registry fuel).run c = .ok (children, m)) :
    ∃ k, c.Through Written k ∧ k.eat? ['>'] = some m := by
  have blank (c : Cursor) := c.through_skipBlanks written_of_isBlank
  induction fuel generalizing c children m with
  | zero => cases run
  | succ fuel ih =>
    have others {child : Option Ty} {k : Cursor} (before : c.Through Written k)
        (run : (readOthers registry fuel child).run k = .ok (children, m)) :
        ∃ k, c.Through Written k ∧ k.eat? ['>'] = some m := by
      have before := before.trans (blank k)
      rw [readOthers, run_skipBlanks_bind] at run
      rcases run_eat_bind_eq_ok.mp run with ⟨l, comma, run⟩ | ⟨-, run⟩
      · obtain ⟨more, n, ran, run⟩ := run_bind_eq_ok.mp run
        obtain ⟨-, rfl⟩ := run_pure_eq_ok.mp run
        obtain ⟨last, further, closing⟩ := ih ran
        have behind := (Cursor.through_of_eat? comma (by simp [Written])).trans further
        exact ⟨last, before.trans behind, closing⟩
      · rcases run_eat_bind_eq_ok.mp run with ⟨l, closing, run⟩ | ⟨-, impossible⟩
        · obtain ⟨-, rfl⟩ := run_pure_eq_ok.mp run
          exact ⟨k.skipBlanks, before, closing⟩
        · cases impossible
    rw [readChildren_succ, run_skipBlanks_bind] at run
    rcases run_eat_bind_eq_ok.mp run with ⟨k, unset, run⟩ | ⟨-, run⟩
    · exact others ((blank c).trans (Cursor.through_of_eat? unset (by simp [Written]))) run
    · obtain ⟨child, k, ran, run⟩ := run_bind_eq_ok.mp run
      have read := TakesOnly.map ((takesOnly_both registry fuel).1 c.skipBlanks) child k ran
      exact others ((blank c).trans read) run

/-- A type ends with its name or, where it has children, with their closing bracket. -/
theorem ended_of_read {t : Ty} (run : (read registry fuel).run c = .ok (t, m)) :
    m = nameEnd c ∨ ∃ k, c.Through Written k ∧ k.eat? ['>'] = some m := by
  cases fuel with
  | zero => cases run
  | succ fuel =>
    rw [read, run_skipBlanks_bind, run_get_bind, run_takeWhile_bind] at run
    dsimp only at run
    split at run
    · cases run
    · rw [run_ahead_bind] at run
      split at run
      · obtain ⟨-, rfl⟩ := run_pure_eq_ok.mp run
        exact .inl rfl
      · rename_i inside opening
        rw [run_set_bind] at run
        obtain ⟨children, k, ran, run⟩ := run_bind_eq_ok.mp run
        obtain ⟨last, further, closing⟩ := closed_of_readChildren ran
        have before := (through_nameEnd written_of_isBlank (fun _ => .inl) c).trans
          (Cursor.through_of_eat? opening (by simp [Written]))
        split at run
        · obtain ⟨-, rfl⟩ := run_pure_eq_ok.mp run
          exact .inr ⟨last, before.trans further, closing⟩
        · cases run

theorem ended_of_readHere {t : Ty} (run : (readHere registry).run c = .ok (t, m)) :
    m = nameEnd c ∨ ∃ k, c.Through Written k ∧ k.eat? ['>'] = some m := by
  rw [readHere, run_get_bind] at run
  exact ended_of_read run

end TypeName

namespace Expression

/-- A text that no phrase gets past from before it. -/
inductive Barrier : List Char → Prop where
  | paren (more : List Char) : Barrier (')' :: more)
  | less {more : List Char} (single : more.head? ≠ some '<') : Barrier ('<' :: more)
  | greater {more : List Char}
      (last : ∀ x, (more.dropWhile Text.isBlank).head? = some x → x = ')') : Barrier ('>' :: more)

/-- A place stands before a text with only characters of types between them, among them no bracket
that would make a shift of one at its start. -/
def Before (barrier : List Char) (c : Cursor) : Prop :=
  ∃ between, c.rest = between ++ barrier ∧
    ∀ x ∈ between, TypeName.Written x ∧ (x = '<' → barrier.head? ≠ some '<')

theorem Barrier.ne_nil {barrier : List Char} (ends : Barrier barrier) : barrier ≠ [] := by
  cases ends <;> exact List.cons_ne_nil _ _

variable {o : CompileOptions} {barrier : List Char} {c c' : Cursor}

/-- An operand starts neither at the end of a text nor where it is closed. -/
theorem current_of_operand {code : Code} (operand : Reads o c (.operand code) c') :
    ∃ x, c.skipBlanks.current? = some x ∧ x ≠ ')' := by
  cases operand with
  | operand value =>
  cases value with
  | value bare =>
  obtain ⟨x, current, start⟩ := start_of_bare bare
  refine ⟨x, current, ?_⟩
  rintro rfl
  rcases start with mark | digit | ⟨point, -⟩ | name
  · exact absurd mark (by decide)
  · cases digit
  · exact absurd point (by decide)
  · cases name

namespace Before

theorem current (ends : Barrier barrier) (before : Before barrier c) {x : Char}
    (current : c.current? = some x) : TypeName.Written x ∨ x = ')' := by
  obtain ⟨between, here, written⟩ := before
  rw [Cursor.current?, here] at current
  cases between with
  | nil =>
    cases ends <;> cases current
    · exact .inr rfl
    · exact .inl (.inr (.inr (by decide)))
    · exact .inl (.inr (.inr (by decide)))
  | cons y between =>
    cases current
    exact .inl (written x List.mem_cons_self).1

/-- Characters of a class that the text does not start with are taken before it. -/
theorem through {class_ : Char → Prop} (other : ∀ x, barrier.head? = some x → ¬class_ x)
    (start : barrier ≠ []) (before : Before barrier c) (through : c.Through class_ c') :
    Before barrier c' := by
  obtain ⟨between, here, written⟩ := before
  obtain ⟨count, rfl, taken⟩ := through
  have inside : count ≤ between.length := by
    refine Nat.le_of_not_lt fun past => ?_
    obtain ⟨x, more, rfl⟩ := List.exists_cons_of_ne_nil start
    refine other x rfl (taken x ?_)
    obtain ⟨further, rfl⟩ := Nat.exists_eq_add_of_lt past
    rw [here, Nat.add_assoc, List.take_length_add_append]
    simp
  refine ⟨between.drop count, ?_, fun x member => written x (List.mem_of_mem_drop member)⟩
  rw [Cursor.rest_advance, here, List.drop_append_of_le_length inside]

theorem skipBlanks (ends : Barrier barrier) (before : Before barrier c) :
    Before barrier c.skipBlanks := by
  refine before.through ?_ ends.ne_nil (c.through_skipBlanks fun _ => id)
  cases ends <;> rintro _ ⟨⟩ <;> decide

/-- A shift takes none of the text: a part of it alone is no shift, and no operand follows what is
left of it. -/
theorem shift (ends : Barrier barrier) (before : Before barrier c) {z : Char}
    (which : z = '<' ∨ z = '>') (starts : [z, z] <+: c.rest) {code : Code}
    (operand : Reads o (c.advance 2) (.operand code) c') : Before barrier (c.advance 2) := by
  obtain ⟨between, here, written⟩ := before
  obtain ⟨others, equal⟩ := starts
  rw [here] at equal
  rcases between with _ | ⟨x, _ | ⟨y, between⟩⟩
  · -- Both brackets would belong to the barrier.
    obtain rfl : z :: z :: others = barrier := equal
    cases ends with
    | paren => exact absurd which (by decide)
    | less single => exact absurd rfl single
    | greater last => exact absurd (last '>' rfl) (by decide)
  · -- The second one would, and what stands behind it would be an operand.
    obtain ⟨rfl, rfl⟩ := List.cons.inj equal
    cases ends with
    | paren => exact absurd which (by decide)
    | less => exact absurd rfl ((written '<' List.mem_cons_self).2 rfl)
    | greater last =>
      obtain ⟨x, current, other⟩ := current_of_operand operand
      rw [Cursor.current?, Cursor.rest_skipBlanks, Cursor.rest_advance, here] at current
      exact absurd (last x current) other
  · refine ⟨between, by rw [Cursor.rest_advance, here]; rfl, fun x member => written x ?_⟩
    exact List.mem_cons_of_mem _ (List.mem_cons_of_mem _ member)

/-- The only operators that types' characters make up are shifts. -/
theorem operator (ends : Barrier barrier) (before : Before barrier c) {stop : Bool} {op : BinaryOp}
    {code : Code} (operator : operatorAt? stop c = some op)
    (operand : Reads o (c.advance op.symbol.length) (.operand code) c') :
    Before barrier (c.advance op.symbol.length) := by
  have starts := isPrefixOf_of_operatorAt? operator
  have first {x : Char} (head : op.symbol.toList.head? = some x) :
      TypeName.Written x ∨ x = ')' := by
    refine before.current ends ?_
    obtain ⟨more, equal⟩ := starts
    rw [Cursor.current?, ← equal, List.head?_append, head]
    rfl
  cases op with
  | shl => exact before.shift ends (.inl rfl) starts operand
  | shr => exact before.shift ends (.inr rfl) starts operand
  | mul | div | rem | add | sub | bitAnd | bitXor | bitOr | range =>
    exact absurd (first rfl) (by decide)

/-- No character stands there that types are not made of, other than a closing parenthesis. -/
theorem refuses (ends : Barrier barrier) (before : Before barrier c) {x : Char}
    (current : c.current? = some x) (other : ¬TypeName.Written x) (open_ : x ≠ ')') : False :=
  (before.current ends current).elim other open_

theorem numeral (ends : Barrier barrier) (before : Before barrier c)
    (through : c.Through Numeral.Written c') : Before barrier c' := by
  refine before.through ?_ ends.ne_nil through
  have noDigit {radix : Nat} {x : Char} (none : isDigitIn radix x = false) :
      isDigitIn radix x ≠ true := by
    rw [none]
    exact Bool.false_ne_true
  cases ends <;> rintro _ ⟨⟩ (⟨radix, digit⟩ | other)
  all_goals first
    | exact absurd digit (noDigit rfl)
    | exact absurd other (by decide)

theorem named (ends : Barrier barrier) (before : Before barrier c)
    (through : c.Through Named c') : Before barrier c' := by
  refine before.through ?_ ends.ne_nil through
  cases ends <;> rintro _ ⟨⟩ <;> unfold Named <;> decide

end Before

/-- What stands before a barrier is read up to it at most. -/
theorem before_of_reads (ends : Barrier barrier) {phrase : Phrase} (reads : Reads o c phrase c')
    (others : ∀ codes, phrase ≠ .arguments codes) (before : Before barrier c) :
    Before barrier c' := by
  -- Only words and operators start with a character of a type; arguments never come up, as no call
  -- gets to its parenthesis.
  induction reads with
  | term _ _ ihOperand ihOperations => exact ihOperations nofun (ihOperand nofun before)
  | noOperation => exact before.skipBlanks ends
  | operation operator operand _ ihOperand ihOperations =>
    have taken := (before.skipBlanks ends).operator ends operator operand
    exact ihOperations nofun (ihOperand nofun taken)
  | operand _ _ ihValue ihIndices => exact ihIndices nofun (ihValue nofun before)
  | noIndex => exact before.skipBlanks ends
  | furtherIndex _ _ ihIndex ihIndices => exact ihIndices nofun (ihIndex nofun before)
  | allContents opening | index opening | optionalIndex opening | range opening =>
    have current := Cursor.current?_of_eat? opening
    exact ((before.skipBlanks ends).refuses ends current (by decide) (by decide)).elim
  | value _ ihBare => exact ihBare nofun (before.skipBlanks ends)
  | literal literal =>
    cases literal with
    | signed current sign =>
      rcases sign with rfl | rfl
      all_goals exact (before.refuses ends current (by decide) (by decide)).elim
    | numeral _ _ read => exact before.numeral ends (Numeral.through_read read).1
    | text current | char current =>
      exact (before.refuses ends current (by decide) (by decide)).elim
  | negation current | cast current | parens current | noElements current | entry current
  | list current => exact (before.refuses ends current (by decide) (by decide)).elim
  | noElement => exact before
  | element comma _ _ ihTerm ihElements =>
    have taken := before.through (by cases ends <;> rintro _ ⟨⟩ <;> decide) ends.ne_nil
      (Cursor.through_of_eat? comma fun x member => List.mem_singleton.mp member)
    exact ihElements nofun ((ihTerm nofun taken).skipBlanks ends)
  | noArguments _ _ opening | call _ _ opening =>
    have name := before.named ends (through_name _)
    exact (name.refuses ends opening (by decide) (by decide)).elim
  | lastArgument | argument => exact absurd rfl (others _)
  | null => exact before.named ends (through_name _)
  | loaded _ _ _ _ read =>
    have name := before.named ends (through_name _)
    exact name.named ends (takesOnly_readVariable _ _ _ _ _ _ read)

/-- No term of a text goes up to a barrier and past it. -/
theorem Before.not_ended (ends : Barrier barrier) {stop : Bool} {code : Code}
    (reads : Reads o c (.term stop code) c') (ended : c'.skipBlanks.current? = none)
    (before : Before barrier c) : False := by
  obtain ⟨between, here, -⟩ := (before_of_reads ends reads nofun before).skipBlanks ends
  rw [Cursor.current?, here, List.head?_eq_none_iff] at ended
  exact ends.ne_nil (List.append_eq_nil_iff.mp ended).2

end Expression
end Immediate
