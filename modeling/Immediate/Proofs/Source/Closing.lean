import Immediate.Proofs.Source.Carrying
/-! Phrases in front of a closing parenthesis. A phrase that stands in a text stands in the same way
wherever the text ends or is closed there. What a parenthesis inside of it holds does not change
either: its type or term ends with its own closing parenthesis. -/
namespace Immediate.Expression

open Immediate.Parser

theorem looksLikeCast_eq (c : Cursor) : looksLikeCast c =
    (!(c.skipBlanks.takeWhile TypeName.isNameChar).1.isEmpty &&
      match (TypeName.nameEnd c).skipBlanks.eat? ['<'],
        (TypeName.nameEnd c).skipBlanks.eat? [')'] with
      | some inside, _ => !inside.isAt fun x => x = '<' || x = '='
      | none, some after => after.skipBlanks.isAt startsValue
      | none, none => false) := rfl

/-- A cast is a type and the closing parenthesis, in front of the start of a value. -/
theorem castAt?_eq_some {registry : Registry} {c m : Cursor} {t : Ty} :
    castAt? registry c = .ok (some (t, m)) ↔
      ∃ after closed, (TypeName.readHere registry).run c = .ok (t, after) ∧
        after.skipBlanks.eat? [')'] = some closed ∧ closed.skipBlanks.isAt startsValue = true ∧
        m = closed.skipBlanks := by
  unfold castAt?
  constructor
  · intro cast
    split at cast
    · rename_i t' after run
      split at cast
      · rename_i closed ended
        split at cast
        · cases cast
          exact ⟨after, closed, run, ended, ‹_›, rfl⟩
        · cases cast
      · cases cast
    · split at cast <;> cases cast
  · rintro ⟨after, closed, run, ended, starts, rfl⟩
    rw [run]
    dsimp only
    rw [ended]
    dsimp only
    rw [if_pos starts]

/-- A parenthesis holds a term where no value follows the type in it, or where no type stands and
nothing has the shape of a cast. -/
theorem castAt?_eq_none {registry : Registry} {c : Cursor} :
    castAt? registry c = .ok none ↔
      (∃ t after, (TypeName.readHere registry).run c = .ok (t, after) ∧
        ∀ closed, after.skipBlanks.eat? [')'] = some closed →
          closed.skipBlanks.isAt startsValue = false) ∨
      ((∃ e, (TypeName.readHere registry).run c = .error e) ∧ looksLikeCast c = false) := by
  unfold castAt?
  cases (TypeName.readHere registry).run c with
  | ok read =>
    obtain ⟨t, after⟩ := read
    dsimp only
    cases ended : after.skipBlanks.eat? [')'] with
    | none => exact ⟨fun _ => .inl ⟨t, after, rfl, by simp [ended]⟩, fun _ => rfl⟩
    | some closed =>
      dsimp only
      cases starts : closed.skipBlanks.isAt startsValue with
      | false => exact ⟨fun _ => .inl ⟨t, after, rfl, by simp [ended, starts]⟩, fun _ => rfl⟩
      | true =>
        refine ⟨fun impossible => (nomatch impossible), ?_⟩
        rintro (⟨t', after', equal, other⟩ | ⟨⟨e, impossible⟩, -⟩)
        · cases equal
          exact absurd starts (by simp [other closed ended])
        · cases impossible
  | error e =>
    cases shaped : looksLikeCast c <;> simp

section
variable {tail : List Char} (closes : Cursor.Closes tail) {c d : Cursor}
  (alike : Cursor.Alike [] tail c d)
include closes alike

theorem operatorAt?_alike (stop : Bool) : operatorAt? stop d = operatorAt? stop c := by
  have same (op : BinaryOp) :
      op.symbol.toList.isPrefixOf d.rest = op.symbol.toList.isPrefixOf c.rest := by
    have other : ')' ∉ op.symbol.toList := by cases op <;> decide
    rw [Bool.eq_iff_iff, List.isPrefixOf_iff_prefix, List.isPrefixOf_iff_prefix, alike.rest]
    exact ⟨closes.starts other, fun starts => starts.trans (List.prefix_append _ _)⟩
  rw [operatorAt?, operatorAt?, funext same]

/-- Behind a type the shape of a cast is told by its closing parenthesis. -/
theorem looksLikeCast_alike (closed : ')' ∈ c.rest) : looksLikeCast d = looksLikeCast c := by
  have whole : Cursor.Closes [] := .inl rfl
  obtain ⟨same, behind⟩ := (alike.skipBlanks whole closes).takeWhile whole closes
    (p := TypeName.isNameChar) rfl
  have blanks : Cursor.Alike [] tail (TypeName.nameEnd c).skipBlanks
    (TypeName.nameEnd d).skipBlanks := behind.skipBlanks whole closes
  rw [looksLikeCast_eq, looksLikeCast_eq, same]
  cases opened : (TypeName.nameEnd c).skipBlanks.eat? ['<'] with
  | some inside =>
    obtain ⟨inside', opened', within⟩ := blanks.eat whole (by decide) opened
    rw [opened']
    dsimp only
    rw [Cursor.isAt, Cursor.isAt, within.any_current whole closes rfl]
  | none =>
    rw [blanks.eat_none closes (by decide) opened]
    cases ended : (TypeName.nameEnd c).skipBlanks.eat? [')'] with
    | some after =>
      obtain ⟨after', ended', further⟩ := blanks.whole_eat ended
      rw [ended']
      dsimp only
      rw [Cursor.isAt, Cursor.isAt, (further.skipBlanks whole closes).any_current whole closes rfl]
    | none =>
      have through := TypeName.through_nameEnd TypeName.written_of_isBlank (fun _ => .inl) c
      have left := List.ne_nil_of_mem (through.mem_rest (by decide) closed)
      rw [blanks.whole_eat_none left ended]

/-- In front of a closing parenthesis the same cast is told. -/
theorem castAt?_some_alike {registry : Registry} {t : Ty} {m : Cursor}
    (cast : castAt? registry c = .ok (some (t, m))) :
    ∃ n, castAt? registry d = .ok (some (t, n)) ∧ Cursor.Alike [] tail m n := by
  have whole : Cursor.Closes [] := .inl rfl
  obtain ⟨after, closed, run, ended, starts, rfl⟩ := castAt?_eq_some.mp cast
  obtain ⟨after', run', behind⟩ := TypeName.carries_readHere whole closes registry alike _ _ run
  obtain ⟨closed', ended', further⟩ := (behind.skipBlanks whole closes).whole_eat ended
  have further := further.skipBlanks whole closes
  refine ⟨closed'.skipBlanks, castAt?_eq_some.mpr ⟨after', closed', run', ended', ?_, rfl⟩, further⟩
  rwa [Cursor.isAt, further.any_current whole closes rfl]

/-- A parenthesis that holds a term up to where it is closed holds it at the other place too. -/
theorem castAt?_none_alike {registry : Registry} (closed : ')' ∈ c.rest)
    (noCast : castAt? registry c = .ok none) : castAt? registry d = .ok none := by
  have whole : Cursor.Closes [] := .inl rfl
  refine castAt?_eq_none.mpr ?_
  rcases castAt?_eq_none.mp noCast with ⟨t, after, run, other⟩ | ⟨⟨e, run⟩, other⟩
  · obtain ⟨after', run', behind⟩ := TypeName.carries_readHere whole closes registry alike _ _ run
    have blanks := behind.skipBlanks whole closes
    refine .inl ⟨t, after', run', fun inside' ended' => ?_⟩
    cases ended : after.skipBlanks.eat? [')'] with
    | some inside =>
      obtain ⟨found, ended'', further⟩ := blanks.whole_eat ended
      obtain rfl := Option.some.inj (ended'.symm.trans ended'')
      rw [Cursor.isAt, (further.skipBlanks whole closes).any_current whole closes rfl]
      exact other inside ended
    | none =>
      -- The closing parenthesis is left, so something other than it stands behind the type.
      have through := (TypeName.takesOnly_readHere registry c t after run).trans
        (after.through_skipBlanks TypeName.written_of_isBlank)
      have left := List.ne_nil_of_mem (through.mem_rest (by decide) closed)
      rw [blanks.whole_eat_none left ended] at ended'
      cases ended'
  · refine .inr ⟨?_, (looksLikeCast_alike closes alike closed).trans other⟩
    cases run' : (TypeName.readHere registry).run d with
    | error e => exact ⟨e, rfl⟩
    | ok read =>
      obtain ⟨m, impossible, -⟩ :=
        TypeName.carries_readHere closes whole registry alike.symm _ _ run'
      rw [run] at impossible
      cases impossible

end

/-- A phrase stands at both places. -/
theorem reads_alike {o : CompileOptions} {tail : List Char} (closes : Cursor.Closes tail)
    {c c' : Cursor} {phrase : Phrase} (reads : Reads o c phrase c') {d : Cursor}
    (alike : Cursor.Alike [] tail c d) :
    ∃ d', Reads o d phrase d' ∧ Cursor.Alike [] tail c' d' := by
  have whole : Cursor.Closes [] := .inl rfl
  have blanks {c d : Cursor} (alike : Cursor.Alike [] tail c d) :
      Cursor.Alike [] tail c.skipBlanks d.skipBlanks := alike.skipBlanks whole closes
  -- What is met at the first place is met at the second; what is not met there neither closes.
  have met {c d m : Cursor} {expected : List Char} (alike : Cursor.Alike [] tail c d)
      (eaten : c.skipBlanks.eat? expected = some m) :
      ∃ n, d.skipBlanks.eat? expected = some n ∧ Cursor.Alike [] tail m n :=
    (blanks alike).whole_eat eaten
  have unmet {c d : Cursor} {expected : List Char} (alike : Cursor.Alike [] tail c d)
      (other : ')' ∉ expected) (missing : c.skipBlanks.eat? expected = none) :
      d.skipBlanks.eat? expected = none := (blanks alike).eat_none closes other missing
  induction reads generalizing d with
  | term _ _ ihOperand ihOperations =>
    obtain ⟨n, operand, alike⟩ := ihOperand alike
    obtain ⟨d', operations, alike⟩ := ihOperations alike
    exact ⟨d', .term operand operations, alike⟩
  | noOperation ended =>
    exact ⟨_, .noOperation ((operatorAt?_alike closes (blanks alike) _).trans ended), blanks alike⟩
  | operation operator _ _ ihOperand ihOperations =>
    have inside := (isPrefixOf_of_operatorAt? operator).length_le
    rw [String.length_toList] at inside
    obtain ⟨n, operand, behind⟩ := ihOperand ((blanks alike).advance_inside inside)
    obtain ⟨d', operations, behind⟩ := ihOperations behind
    have operator := (operatorAt?_alike closes (blanks alike) _).trans operator
    exact ⟨d', .operation operator operand operations, behind⟩
  | operand _ _ ihValue ihIndices =>
    obtain ⟨n, value, alike⟩ := ihValue alike
    obtain ⟨d', indices, alike⟩ := ihIndices alike
    exact ⟨d', .operand value indices, alike⟩
  | noIndex ended => exact ⟨_, .noIndex (unmet alike (by decide) ended), blanks alike⟩
  | furtherIndex _ _ ihIndex ihIndices =>
    obtain ⟨n, index, alike⟩ := ihIndex alike
    obtain ⟨d', indices, alike⟩ := ihIndices alike
    exact ⟨d', .furtherIndex index indices, alike⟩
  | allContents opening closing =>
    obtain ⟨n, opening, alike⟩ := met alike opening
    obtain ⟨d', closing, alike⟩ := met alike closing
    exact ⟨d', .allContents opening closing, alike⟩
  | index opening more _ single strict closing ihTerm =>
    obtain ⟨n, opening, inside⟩ := met alike opening
    obtain ⟨k, term, behind⟩ := ihTerm (blanks inside)
    obtain ⟨d', closing, alike⟩ := met behind closing
    exact ⟨d', .index opening (unmet inside (by decide) more) term
      (unmet behind (by decide) single) (unmet behind (by decide) strict) closing, alike⟩
  | optionalIndex opening more _ single lenient closing ihTerm =>
    obtain ⟨n, opening, inside⟩ := met alike opening
    obtain ⟨k, term, behind⟩ := ihTerm (blanks inside)
    obtain ⟨l, lenient, marked⟩ := met behind lenient
    obtain ⟨d', closing, alike⟩ := met marked closing
    exact ⟨d', .optionalIndex opening (unmet inside (by decide) more) term
      (unmet behind (by decide) single) lenient closing, alike⟩
  | range opening more _ range _ closing ihLow ihHigh =>
    obtain ⟨n, opening, inside⟩ := met alike opening
    obtain ⟨k, low, behind⟩ := ihLow (blanks inside)
    obtain ⟨l, range, further⟩ := met behind range
    obtain ⟨n', high, behind⟩ := ihHigh further
    obtain ⟨d', closing, alike⟩ := met behind closing
    exact ⟨d', .range opening (unmet inside (by decide) more) low range high closing, alike⟩
  | value _ ihBare =>
    obtain ⟨d', bare, alike⟩ := ihBare (blanks alike)
    exact ⟨d', .value bare, alike⟩
  | literal literal =>
    obtain ⟨d', literal, alike⟩ := literal_alike closes alike literal
    exact ⟨d', .literal literal, alike⟩
  | negation minus noDigits _ ihValue =>
    obtain ⟨d', value, behind⟩ := ihValue (alike.advance_whole minus)
    have noDigits := (alike.any_next whole closes rfl minus (by decide)).trans noDigits
    exact ⟨d', .negation (alike.whole_current minus) noDigits value, behind⟩
  | cast opening cast _ ihValue =>
    obtain ⟨n, cast, behind⟩ := castAt?_some_alike closes (alike.advance_whole opening) cast
    obtain ⟨d', value, behind⟩ := ihValue behind
    exact ⟨d', .cast (alike.whole_current opening) cast value, behind⟩
  | parens opening noCast term closing ihTerm =>
    have inside := alike.advance_whole opening
    have closed := (moves_of_reads term : Cursor.Past _ _).onward.mem_rest
      (Cursor.mem_rest_of_eat? closing)
    obtain ⟨n, term, behind⟩ := ihTerm inside
    obtain ⟨d', closing, behind⟩ := met behind closing
    have noCast := castAt?_none_alike closes inside closed noCast
    exact ⟨d', .parens (alike.whole_current opening) noCast term closing, behind⟩
  | noElements opening closing =>
    obtain ⟨d', closing, behind⟩ := met (alike.advance_whole opening) closing
    exact ⟨d', .noElements (alike.whole_current opening) closing, behind⟩
  | entry opening more _ colon _ closing ihFirst ihSecond =>
    have inside := alike.advance_whole opening
    obtain ⟨n, first, behind⟩ := ihFirst (blanks inside)
    obtain ⟨k, colon, further⟩ := met behind colon
    obtain ⟨l, second, behind⟩ := ihSecond further
    obtain ⟨d', closing, behind⟩ := met behind closing
    exact ⟨d', .entry (alike.whole_current opening) (unmet inside (by decide) more) first colon
      second closing, behind⟩
  | list opening more _ noColon _ closing ihFirst ihElements =>
    have inside := alike.advance_whole opening
    obtain ⟨n, first, behind⟩ := ihFirst (blanks inside)
    obtain ⟨k, elements, further⟩ := ihElements (blanks behind)
    obtain ⟨d', closing, further⟩ := met further closing
    exact ⟨d', .list (alike.whole_current opening) (unmet inside (by decide) more) first
      (unmet behind (by decide) noColon) elements closing, further⟩
  | noElement ended => exact ⟨d, .noElement (alike.eat_none closes (by decide) ended), alike⟩
  | element comma _ _ ihTerm ihElements =>
    obtain ⟨n, comma, behind⟩ := alike.whole_eat comma
    obtain ⟨k, term, behind⟩ := ihTerm behind
    obtain ⟨d', elements, behind⟩ := ihElements (blanks behind)
    exact ⟨d', .element comma term elements, behind⟩
  | noArguments current name opening closing found =>
    obtain ⟨same, behind⟩ := name_alike whole closes alike
    obtain ⟨d', closing, inside⟩ := met (behind.advance_whole opening) closing
    exact ⟨d', .noArguments (alike.whole_current current) name (behind.whole_current opening)
      closing (by rw [same]; exact found), inside⟩
  | call current name opening more arguments found ihArguments =>
    obtain ⟨same, behind⟩ := name_alike whole closes alike
    have inside := blanks (behind.advance_whole opening)
    have left := List.length_pos_iff.mp (Nat.zero_lt_of_lt (moves_of_reads arguments).less)
    obtain ⟨d', arguments, further⟩ := ihArguments inside
    exact ⟨d', .call (alike.whole_current current) name (behind.whole_current opening)
      (inside.whole_eat_none left more) arguments (by rw [same]; exact found), further⟩
  | lastArgument _ noComma closing ihTerm =>
    obtain ⟨n, term, behind⟩ := ihTerm alike
    obtain ⟨d', closing, further⟩ := met behind closing
    exact ⟨d', .lastArgument term (unmet behind (by decide) noComma) closing, further⟩
  | argument _ comma _ ihTerm ihArguments =>
    obtain ⟨n, term, behind⟩ := ihTerm alike
    obtain ⟨k, comma, behind⟩ := met behind comma
    obtain ⟨d', arguments, behind⟩ := ihArguments behind
    exact ⟨d', .argument term comma arguments, behind⟩
  | null current name noCall alone null =>
    obtain ⟨same, behind⟩ := name_alike whole closes alike
    exact ⟨_, .null (alike.whole_current current) name (behind.current_ne closes (by decide) noCall)
      ((isQualified_alike whole closes behind).trans alone) (same.trans null), behind⟩
  | loaded current name noCall notNull read =>
    obtain ⟨same, behind⟩ := name_alike whole closes alike
    obtain ⟨d', read, further⟩ := carries_readVariable whole closes behind o _ _ _ _ _ read
    refine ⟨d', .loaded (alike.whole_current current) name
      (behind.current_ne closes (by decide) noCall) ?_ (by rw [same]; exact read), further⟩
    rwa [isQualified_alike whole closes behind, same]

end Immediate.Expression
