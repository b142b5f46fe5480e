import Immediate.Editing.Change
import Immediate.Proofs.Folding
import Immediate.Proofs.Source.Completeness
import Immediate.Source.PathText
/-! Paths are expressions. What a path wraps around its variable are calls of functions of one
argument, and its indices are those of an operand, so a text that spells a path spells as an
expression the code that reads this path. -/
namespace Immediate

open Immediate.Parser

/-- No variable is named by the literal null. -/
theorem VariableId.ofNames_null (space : List Char) :
    ∃ e, ofNames space "null".toList = .error e := by
  unfold ofNames
  cases checkName space with
  | error e => exact ⟨e, rfl⟩
  | ok => exact ⟨.nullPath, rfl⟩

namespace Expression

variable {o : CompileOptions} {c c' : Cursor}

/-- A name that is read as a variable is not the literal null. -/
theorem not_null_of_readVariable {name : List Char} {start : Nat} {id : VariableId}
    (run : (readVariable o name start).run c = .ok (id, c')) :
    isQualified c = true ∨ name ≠ "null".toList := by
  cases qualified : isQualified c with
  | true => exact .inl rfl
  | false =>
    refine .inr ?_
    rintro rfl
    rw [readVariable, run_get_bind, qualified] at run
    obtain ⟨e, refused⟩ := VariableId.ofNames_null o.space.toList
    dsimp only at run
    rw [if_neg Bool.false_ne_true, refused] at run
    cases run

end Expression

namespace Path

open Expression

variable {o : CompileOptions} {c m k c' : Cursor}

/-- What a path may wrap around its variable is a function of one argument. -/
theorem call_of_wrap? {name : List Char} {wrap : Accessor} (found : wrap? name = some wrap) :
    (wrap = .entryKey ∨ wrap = .entryValue) ∧
      ∃ b, Builtin.find? (String.ofList name) 1 = some b ∧ wrap.code = [.call b 1] := by
  unfold wrap? at found
  split at found
  · rename_i key
    cases found
    exact ⟨.inl rfl, .key, by rw [key]; rfl, rfl⟩
  · split at found
    · rename_i value
      cases found
      exact ⟨.inr rfl, .value, by rw [value]; rfl, rfl⟩
    · cases found

/-- A function wrapped around a value is a call with this value as its one argument. -/
theorem reads_wrapped {wrap : Accessor} {code : Code} (name : c.isAt isIdStart = true)
    (found : wrap? (nameAt c) = some wrap) (opening : (afterName c).eat? ['('] = some m)
    (inside : m.skipBlanks.isAt isIdStart = true) (inner : Reads o m.skipBlanks (.bare code) k)
    (closing : k.skipBlanks.eat? [')'] = some c') : Reads o c (.bare (code ++ wrap.code)) c' := by
  obtain ⟨x, current, starts⟩ := (Option.any_eq_true _ _).mp name
  obtain ⟨y, first, firstStarts⟩ := (Option.any_eq_true _ _).mp inside
  obtain ⟨-, b, function, called⟩ := call_of_wrap? found
  have behind : m = (afterName c).advance 1 := (Cursor.isPrefixOf_of_eat? opening).2
  have ended : k.skipBlanks.current? = some ')' := Cursor.current?_of_eat? closing
  have again : Reads o m.skipBlanks (.value code) k := by
    apply Reads.value
    rwa [Cursor.skipBlanks_skipBlanks]
  -- The parenthesis that closes the wrap starts neither an index nor an operator.
  have operand : Reads o m.skipBlanks (.operand code) k.skipBlanks := by
    apply operand_of_value again
    exact Cursor.eat?_eq_none (by simp [ended])
  have term : Reads o m.skipBlanks (.term false code) k.skipBlanks := by
    rw [← k.skipBlanks_skipBlanks]
    apply term_of_operand operand
    apply operatorAt?_eq_none
    intro op
    rw [k.skipBlanks_skipBlanks, ended]
    cases op <;> decide
  have arguments : Reads o m.skipBlanks (.arguments [code]) c' := by
    apply Reads.lastArgument term
    · rw [k.skipBlanks_skipBlanks]
      exact Cursor.eat?_eq_none (by simp [ended])
    · rwa [k.skipBlanks_skipBlanks]
  -- The variable inside starts with a name, so the arguments are not empty.
  have more : m.skipBlanks.eat? [')'] = none := by
    apply Cursor.eat?_eq_none
    rw [first]
    rintro ⟨⟩
    cases firstStarts
  subst behind
  rw [called]
  simpa using Reads.call current starts (Cursor.current?_of_eat? opening) more arguments function

/-! ### What a path starts with -/

/-- A variable stands between two places, with functions wrapped around it, the innermost first. -/
inductive ReadsBase (o : CompileOptions) :
    Cursor → VariableId → List Accessor → Cursor → Prop where
  | bare {c c' : Cursor} {base : VariableId} (name : c.skipBlanks.isAt isIdStart = true)
      (noCall : (afterName c.skipBlanks).eat? ['('] = none)
      (read : (readVariable o (nameAt c.skipBlanks) c.skipBlanks.offset).run
        (afterName c.skipBlanks) = .ok (base, c')) : ReadsBase o c base [] c'
  | wrapped {c m k c' : Cursor} {base : VariableId} {wraps : List Accessor} {wrap : Accessor}
      (name : c.skipBlanks.isAt isIdStart = true)
      (found : wrap? (nameAt c.skipBlanks) = some wrap)
      (opening : (afterName c.skipBlanks).eat? ['('] = some m)
      (inner : ReadsBase o m base wraps k) (closing : k.skipBlanks.eat? [')'] = some c') :
      ReadsBase o c base (wraps ++ [wrap]) c'

variable {fuel : Nat} {base : VariableId} {wraps : List Accessor}

theorem run_readBase_eq_ok : (readBase o (fuel + 1)).run c = .ok ((base, wraps), c') ↔
    c.skipBlanks.isAt isIdStart = true ∧
      ((∃ m k inner wrap, (afterName c.skipBlanks).eat? ['('] = some m ∧
          wrap? (nameAt c.skipBlanks) = some wrap ∧
          (readBase o fuel).run m = .ok ((base, inner), k) ∧
          k.skipBlanks.eat? [')'] = some c' ∧ wraps = inner ++ [wrap]) ∨
        ((afterName c.skipBlanks).eat? ['('] = none ∧ wraps = [] ∧
          (readVariable o (nameAt c.skipBlanks) c.skipBlanks.offset).run (afterName c.skipBlanks) =
            .ok (base, c'))) := by
  rw [readBase, run_skipBlanks_bind, run_get_bind]
  change (get >>= _ : Parser (VariableId × List Accessor)).run _ = _ ↔ _
  rw [run_get_bind]
  refine (run_check_eq_ok fun c => ⟨_, rfl⟩).trans (and_congr (by simp) ?_)
  rw [run_bind (run_readName _), run_eat_bind_eq_ok]
  apply or_congr
  · constructor
    · rintro ⟨m, opening, run⟩
      rw [if_pos rfl] at run
      cases found : wrap? (nameAt c.skipBlanks) with
      | none =>
        rw [found] at run
        cases run
      | some wrap =>
        rw [found] at run
        obtain ⟨⟨base', inner⟩, k, ranInner, run⟩ := run_bind_eq_ok.mp run
        dsimp only at run
        rw [run_skipBlanks_bind] at run
        rcases run_eat_bind_eq_ok.mp run with ⟨l, closing, run⟩ | ⟨-, impossible⟩
        · cases run
          exact ⟨m, k, inner, wrap, opening, rfl, ranInner, closing, rfl⟩
        · cases impossible
    · rintro ⟨m, k, inner, wrap, opening, found, ranInner, closing, rfl⟩
      refine ⟨m, opening, ?_⟩
      rw [if_pos rfl, found]
      refine run_bind_eq_ok.mpr ⟨(base, inner), k, ranInner, ?_⟩
      dsimp only
      rw [run_skipBlanks_bind]
      exact run_eat_bind_eq_ok.mpr (.inl ⟨c', closing, rfl⟩)
  · apply and_congr_right
    intro noCall
    rw [if_neg Bool.false_ne_true, run_bind_eq_ok]
    constructor
    · rintro ⟨id, k, read, run⟩
      cases run
      exact ⟨rfl, read⟩
    · rintro ⟨rfl, read⟩
      exact ⟨base, c', read, rfl⟩

theorem readsBase_of_run (run : (readBase o fuel).run c = .ok ((base, wraps), c')) :
    ReadsBase o c base wraps c' := by
  induction fuel generalizing c wraps c' with
  | zero => cases run
  | succ fuel ih =>
    obtain ⟨name, wrapped | ⟨noCall, rfl, read⟩⟩ := run_readBase_eq_ok.mp run
    · obtain ⟨m, k, inner, wrap, opening, found, ranInner, closing, rfl⟩ := wrapped
      exact .wrapped name found opening (ih ranInner) closing
    · exact .bare name noCall read

/-- Each function wrapped around a variable takes its name and a parenthesis. -/
theorem run_of_readsBase (reads : ReadsBase o c base wraps c') (enough : c.rest.length < fuel) :
    (readBase o fuel).run c = .ok ((base, wraps), c') := by
  induction reads generalizing fuel with
  | bare name noCall read =>
    obtain ⟨fuel, rfl⟩ := Nat.exists_eq_succ_of_ne_zero (Nat.ne_zero_of_lt enough)
    exact run_readBase_eq_ok.mpr ⟨name, .inr ⟨noCall, rfl, read⟩⟩
  | @wrapped c m _ _ _ _ _ name found opening _ closing ih =>
    obtain ⟨fuel, rfl⟩ := Nat.exists_eq_succ_of_ne_zero (Nat.ne_zero_of_lt enough)
    have less : m.rest.length < c.rest.length := by
      have named := c.onward_skipBlanks.trans (onward_afterName _)
      exact (named.past (Cursor.past_of_eat? opening)).less
    have enough : m.rest.length < fuel := by omega
    exact run_readBase_eq_ok.mpr
      ⟨name, .inl ⟨m, _, _, _, opening, found, ih enough, closing, rfl⟩⟩

/-- A variable and what is wrapped around it are a value of an expression. -/
theorem reads_of_readsBase (reads : ReadsBase o c base wraps c') :
    c.skipBlanks.isAt isIdStart = true ∧
      Reads o c.skipBlanks (.bare (.variable base :: wraps.flatMap Accessor.code)) c' := by
  induction reads with
  | bare name noCall read =>
    obtain ⟨x, current, starts⟩ := (Option.any_eq_true _ _).mp name
    refine ⟨name, .loaded current starts ?_ (not_null_of_readVariable read) read⟩
    intro opening
    rw [Cursor.eat?_eq_some opening] at noCall
    cases noCall
  | wrapped name found opening _ closing ih =>
    exact ⟨name, by simpa using reads_wrapped name found opening ih.1 ih.2 closing⟩

/-- Only functions are wrapped around a variable. -/
theorem wrap_of_readsBase (reads : ReadsBase o c base wraps c') :
    ∀ wrap ∈ wraps, wrap = .entryKey ∨ wrap = .entryValue := by
  induction reads with
  | bare => exact nofun
  | wrapped _ found _ _ _ ih =>
    intro other member
    rcases List.mem_append.mp member with member | member
    · exact ih other member
    · cases List.mem_singleton.mp member
      exact (call_of_wrap? found).1

/-! ### Paths and expressions -/

/-- A text spells a path exactly when a variable with its wraps and then indices stand in it, with
nothing but blanks behind. -/
theorem parse_eq_ok {s : String} {q : Path} : parse o s = .ok q ↔
    ∃ wraps indices m c', q.accessors = wraps ++ indices ∧ ReadsBase o (.start s) q.base wraps m ∧
      Reads o m (.indices indices) c' ∧ c'.skipBlanks.current? = none := by
  have length : (Cursor.start s).rest.length = s.length := String.length_toList
  rw [parse, readAll_eq_ok]
  constructor
  · rintro ⟨c', run, ended⟩
    obtain ⟨⟨base, wraps⟩, m, ranBase, run⟩ := run_bind_eq_ok.mp run
    obtain ⟨indices, k, ranIndices, run⟩ := run_bind_eq_ok.mp run
    cases run
    have behind := (sound o _).indices ranIndices
    exact ⟨wraps, indices, m, c', rfl, readsBase_of_run ranBase, behind, ended⟩
  · obtain ⟨base, accessors⟩ := q
    rintro ⟨wraps, indices, m, c', rfl, reads, behind, ended⟩
    have run : (readBase o (fuelFor s)).run (.start s) = .ok ((base, wraps), m) := by
      apply run_of_readsBase reads
      unfold fuelFor
      omega
    have enough : Enough m (.indices indices) (fuelFor s) := by
      have value := Reads.value (reads_of_readsBase reads).2
      have less := (moves_of_reads value : Cursor.Past _ _).less
      unfold Enough fuelFor
      simp only [Phrase.cost]
      omega
    refine ⟨c', run_bind_eq_ok.mpr ⟨_, m, run, ?_⟩, ended⟩
    exact run_bind_eq_ok.mpr ⟨indices, c', runsWith_of_reads behind enough, rfl⟩

/-- A text that spells a path spells as an expression the code that reads the path. -/
theorem expression_of_parse {s : String} {q : Path} (read : parse o s = .ok q) :
    Expression.parse o s = .ok q.code := by
  obtain ⟨wraps, indices, m, c', accessors, base, behind, ended⟩ := parse_eq_ok.mp read
  have operand := Reads.operand (.value (reads_of_readsBase base).2) behind
  have term : Reads o (.start s) (.term false q.code) c'.skipBlanks := by
    have code : q.code = .variable q.base :: wraps.flatMap Accessor.code ++
        indices.flatMap Accessor.code := by
      simp [Path.code, accessors]
    rw [code]
    apply term_of_operand operand
    apply operatorAt?_eq_none
    intro op
    rw [ended]
    cases op <;> decide
  apply Expression.parse_eq_ok.mpr
  exact ⟨c'.skipBlanks, term, by rwa [Cursor.skipBlanks_skipBlanks]⟩

/-- A path that was compiled is also an expression, whose code is the one that reads the path; and
evaluating it gives on every store and host what reading the path gives. -/
theorem compile_of_parse {s : String} {q : Path} (read : parse o s = .ok q) :
    Expression.parse o s = .ok q.code ∧
      ∃ e, Expression.compile o s = .ok e ∧ e.code = q.code ∧
        (∀ context : Context, e.evaluate context = q.code.execute context) ∧
        ∀ world, Edit.evaluate world e = q.read world := by
  have spelled := expression_of_parse read
  have asks : q.code.any (·.asksContext) = true := rfl
  refine ⟨spelled, ⟨q.code⟩, ?_, rfl, fun context => evaluate_eq_execute context _, ?_⟩
  · rw [Expression.compile, spelled]
    change Except.ok (if o.fold = true then folded q.code else ⟨q.code⟩) = _
    rw [folded, Code.fold_of_asksContext asks, ite_self]
  · intro world
    simp only [Edit.evaluate, evaluate_eq_execute]
    rfl

/-- What `value(m)[0]` reads as a path it evaluates to as an expression. -/
theorem compile_of_parse_wrapped :
    let first : Instruction := .constant (some (.integer .int 0))
    let q : Path := ⟨⟨"global", "m"⟩, [.entryValue, .index [first]]⟩
    parse {} "value(m)[0]" = .ok q ∧
      Expression.parse {} "value(m)[0]" =
        .ok [.variable ⟨"global", "m"⟩, .call .value 1, first, .index] ∧
      ∃ e, Expression.compile {} "value(m)[0]" = .ok e ∧
        ∀ world, Edit.evaluate world e = q.read world := by
  intro first q
  have read : parse {} "value(m)[0]" = .ok q := by rfl
  obtain ⟨spelled, e, compiled, -, -, same⟩ := compile_of_parse read
  exact ⟨read, spelled, e, compiled, same⟩

end Path
end Immediate
