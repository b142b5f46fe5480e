import Immediate.Eval.Expression
import Immediate.Proofs.Source.Alike
import Immediate.Proofs.Source.Paths
import Immediate.Proofs.Source.Precedence
import Immediate.Proofs.Trimming
import Mathlib.Data.List.TakeWhile
/-! Names that are declared and names that are read. A variable is declared by a text that is checked as a
whole; a path or an expression takes the characters of a name one after the other, and stops before two
points, which stand for a range there. So a declared variable is read from the text that declares it
exactly when no two points stand in a row in this text. -/
namespace Immediate

open Immediate.Parser

/-- Two points stand in a row. -/
def TwoPoints (cs : List Char) : Prop := ['.', '.'] <:+: cs

theorem not_twoPoints_nil : ¬TwoPoints [] := by
  intro points
  cases List.eq_nil_of_infix_nil points

theorem twoPoints_cons {x : Char} {rest : List Char} :
    TwoPoints (x :: rest) ↔ (x = '.' ∧ rest.head? = some '.') ∨ TwoPoints rest := by
  rw [TwoPoints, List.infix_cons_iff, List.cons_prefix_cons]
  refine or_congr (and_congr eq_comm ?_) Iff.rfl
  cases rest with
  | nil => simp
  | cons y rest => simp [List.cons_prefix_cons, eq_comm]

/-- Two points on neither side of a colon are none around it. -/
theorem twoPoints_append_colon {front back : List Char} :
    TwoPoints (front ++ ':' :: back) ↔ TwoPoints front ∨ TwoPoints back := by
  induction front with
  | nil => simp [twoPoints_cons, not_twoPoints_nil]
  | cons x front ih =>
    rw [List.cons_append, twoPoints_cons, ih, twoPoints_cons, or_assoc]
    cases front with
    | nil => simp
    | cons y front => rfl

/-! ### Names that are declared -/

namespace VariableId

/-- A namespace or a path is made of the characters of names, the first of which may start one. -/
theorem checkName_eq_ok {cs : List Char} : checkName cs = .ok () ↔
    cs.head?.any isIdStart = true ∧ ∀ x ∈ cs, isIdChar x = true := by
  cases cs with
  | nil => simp [checkName]
  | cons x rest =>
    rw [checkName]
    cases starts : isIdStart x with
    | false => simp [starts]
    | true =>
      have first : isIdChar x = true := by
        simp only [isIdStart, Bool.and_eq_true] at starts
        exact starts.1.1
      cases found : rest.find? (!isIdChar ·) with
      | none =>
        have each := List.find?_eq_none.mp found
        simpa [starts, first] using each
      | some bad =>
        have other := List.find?_some found
        have member := List.mem_of_find?_eq_some found
        simp only [Bool.not_true, Bool.false_eq_true, if_false, reduceCtorEq, false_iff]
        rintro ⟨-, each⟩
        simp [each bad (List.mem_cons_of_mem x member)] at other

theorem ofNames_eq_ok {space path : List Char} {id : VariableId} : ofNames space path = .ok id ↔
    checkName space = .ok () ∧ checkName path = .ok () ∧ path ≠ "null".toList ∧
      id = ⟨String.ofList space, String.ofList path⟩ := by
  unfold ofNames
  cases checkName space with
  | error e => exact ⟨nofun, fun ⟨impossible, _⟩ => nomatch impossible⟩
  | ok =>
    cases checkName path with
    | error e => exact ⟨nofun, fun ⟨_, impossible, _⟩ => nomatch impossible⟩
    | ok =>
      by_cases null : path = "null".toList
      · subst null
        exact ⟨nofun, fun ⟨_, _, impossible, _⟩ => absurd rfl impossible⟩
      · change (if path = "null".toList then _ else _) = _ ↔ _
        rw [if_neg null]
        simp only [pure, Except.pure, Except.ok.injEq, true_and, null, not_false_eq_true,
          ne_eq, eq_comm]

/-- A declared text is a path, or a namespace and a path with a colon between them. -/
theorem names_of_ofText {t space : String} {id : VariableId} (named : ofText t space = .ok id) :
    (':' ∉ t.toList ∧ ofNames space.toList t.toList = .ok id) ∨
      ∃ front back, t.toList = front ++ ':' :: back ∧ ofNames front back = .ok id := by
  unfold ofText at named
  split at named
  · rename_i noColon
    refine .inl ⟨fun colon => ?_, named⟩
    simpa using List.dropWhile_eq_nil_iff.mp noColon ':' colon
  · rename_i x back rest
    have parts := List.takeWhile_append_dropWhile (p := (decide <| · ≠ ':')) (l := t.toList)
    have colon : x = ':' := by
      have stops := List.head?_dropWhile_not (decide <| · ≠ ':') t.toList
      rw [rest] at stops
      simpa using stops
    rw [rest, colon] at parts
    exact .inr ⟨_, back, parts.symm, named⟩

end VariableId

/-! ### Names that are read -/

namespace Expression

variable {o : CompileOptions} {c c' : Cursor} {id : VariableId} {name : List Char}

/-- A name is taken up to what may not stand in one, unless it has two points in a row. -/
theorem nameChars_append {tail : List Char} (each : ∀ x ∈ name, isIdChar x = true)
    (single : ¬TwoPoints name) (ended : tail.head?.any isIdChar = false) :
    nameChars (name ++ tail) = name := by
  induction name with
  | nil =>
    cases tail with
    | nil => rfl
    | cons x rest =>
      have other : isIdChar x = false := ended
      rw [List.nil_append, nameChars, if_neg (by simp [other])]
      rintro more rfl
      cases other
  | cons x rest ih =>
    rw [twoPoints_cons, not_or] at single
    have inName := each x List.mem_cons_self
    rw [List.cons_append, nameChars, if_pos inName,
      ih (fun y member => each y (List.mem_cons_of_mem x member)) single.2]
    rintro more rfl front
    cases rest with
    | nil =>
      rw [List.nil_append] at front
      rw [front] at ended
      cases ended
    | cons y rest => exact single.1 ⟨rfl, congrArg some (List.cons.inj front).1⟩

theorem not_twoPoints_nameChars (cs : List Char) : ¬TwoPoints (nameChars cs) := by
  fun_induction nameChars cs with
  | case1 => exact not_twoPoints_nil
  | case2 x rest single _ ih =>
    rw [twoPoints_cons, not_or]
    refine ⟨?_, ih⟩
    rintro ⟨rfl, points⟩
    obtain ⟨more, front⟩ := starts_nameChars rest
    cases name : nameChars rest with
    | nil =>
      rw [name] at points
      cases points
    | cons y others =>
      rw [name] at points front
      cases points
      exact single (others ++ more) rfl front.symm
  | case3 => exact not_twoPoints_nil
  | case4 => exact not_twoPoints_nil

theorem nameAt_append_rest (c : Cursor) : nameAt c ++ (afterName c).rest = c.rest := by
  have front : nameAt c = c.rest.take (nameAt c).length :=
    List.prefix_iff_eq_take.mp (starts_nameChars c.rest)
  rw [afterName, Cursor.rest_advance]
  exact (congrArg (· ++ _) front).trans (List.take_append_drop _ _)

theorem afterName_of_nameAt {tail : List Char} (here : c.rest = name ++ tail)
    (taken : nameAt c = name) : (afterName c).rest = tail := by
  rw [afterName, taken, Cursor.rest_advance, here, List.drop_left]

/-- A variable is read from one name in the default namespace, or from two names around a colon. -/
theorem run_readVariable_eq_ok {start : Nat} : (readVariable o name start).run c = .ok (id, c') ↔
    (isQualified c = false ∧ VariableId.ofNames o.space.toList name = .ok id ∧ c' = c) ∨
      (isQualified c = true ∧ VariableId.ofNames name (nameAt (c.advance 1)) = .ok id ∧
        c' = afterName (c.advance 1)) := by
  rw [readVariable, run_get_bind]
  cases isQualified c with
  | false =>
    rw [if_neg Bool.false_ne_true]
    cases VariableId.ofNames o.space.toList name with
    | error e =>
      constructor
      · intro run
        cases run
      · rintro (⟨-, impossible, -⟩ | ⟨impossible, -⟩) <;> cases impossible
    | ok other =>
      change Except.ok (other, c) = .ok (id, c') ↔ _
      simp [eq_comm]
  | true =>
    rw [if_pos rfl, run_set_bind, run_bind (run_readName _)]
    cases VariableId.ofNames name (nameAt (c.advance 1)) with
    | error e =>
      constructor
      · intro run
        cases run
      · rintro (⟨impossible, -⟩ | ⟨-, impossible, -⟩) <;> cases impossible
    | ok other =>
      change Except.ok (other, afterName (c.advance 1)) = .ok (id, c') ↔ _
      simp [eq_comm]

/-- Where a variable was read to the end, there are no two points in a row. -/
theorem single_of_readVariable {start : Nat}
    (run : (readVariable o (nameAt c) start).run (afterName c) = .ok (id, c')) (ended : c'.rest = []) :
    ¬TwoPoints c.rest := by
  rw [← nameAt_append_rest c]
  rcases run_readVariable_eq_ok.mp run with ⟨-, -, rfl⟩ | ⟨qualified, -, rfl⟩
  · rw [ended, List.append_nil]
    exact not_twoPoints_nameChars c.rest
  · have colon := current_of_isQualified qualified
    have behind := nameAt_append_rest ((afterName c).advance 1)
    rw [ended, List.append_nil] at behind
    rw [Cursor.rest_of_eat? (Cursor.eat?_eq_some colon), ← behind, twoPoints_append_colon, not_or]
    exact ⟨not_twoPoints_nameChars _, not_twoPoints_nameChars _⟩

/-! ### Texts without blanks and brackets -/

instance : DecidablePred Named := fun x =>
  inferInstanceAs (Decidable (isIdChar x = true ∨ x = ':'))

theorem not_isBlank_of_named {x : Char} (named : Named x) : Text.isBlank x = false :=
  Text.not_isBlank_of_class (p := (decide <| Named ·)) (by decide) (decide_eq_true named)

/-- Only characters of variables are left. -/
def NamedOnly (c : Cursor) : Prop := ∀ x ∈ c.rest, Named x

section
variable (only : NamedOnly c)
include only

theorem NamedOnly.skipBlanks : c.skipBlanks = c := by
  cases here : c.rest with
  | nil =>
    obtain ⟨offset, rest⟩ := c
    cases here
    rfl
  | cons x rest =>
    have named := only x (here ▸ List.mem_cons_self)
    exact Cursor.skipBlanks_of_rest here (not_isBlank_of_named named)

theorem NamedOnly.onward (onward : c.Onward c') : NamedOnly c' :=
  fun x member => only x (onward.mem_rest member)

theorem NamedOnly.eat?_eq_none {x : Char} {more : List Char} (other : ¬Named x) :
    c.eat? (x :: more) = none := by
  apply Cursor.eat?_eq_none
  exact fun current => other (only x (List.mem_of_mem_head? current))

theorem NamedOnly.rest_of_ended (ended : c.skipBlanks.current? = none) : c.rest = [] := by
  rw [only.skipBlanks] at ended
  exact List.head?_eq_none_iff.mp ended

theorem NamedOnly.no_indices {accessors : List Accessor} (indices : Reads o c (.indices accessors) c') :
    accessors = [] ∧ c' = c := by
  have noBracket : c.skipBlanks.eat? ['['] = none := by
    rw [only.skipBlanks]
    exact only.eat?_eq_none (by decide)
  cases indices with
  | noIndex => exact ⟨rfl, only.skipBlanks⟩
  | furtherIndex index =>
    cases index with
    | allContents opening | index opening | optionalIndex opening | range opening =>
      rw [noBracket] at opening
      cases opening

/-- The only operator that is made of such characters is the range. -/
theorem NamedOnly.range_of_operator {stop : Bool} {op : BinaryOp}
    (operator : operatorAt? stop c = some op) : op = .range := by
  have marks : op.symbol.toList.all (decide <| Named ·) = true := List.all_eq_true.mpr fun x member =>
    decide_eq_true (only x ((isPrefixOf_of_operatorAt? operator).subset member))
  cases op <;> first | rfl | exact absurd marks (by decide)

theorem NamedOnly.range_of_operations {stop : Bool} {rest : List (BinaryOp × Code)}
    (operations : Reads o c (.operations stop rest) c') : ∀ pair ∈ rest, pair.1 = .range := by
  induction rest generalizing c with
  | nil => exact nofun
  | cons first more ih =>
    cases operations with
    | operation operator operand operations =>
      rw [only.skipBlanks] at operator operand
      have behind := (Cursor.onward_advance c _).trans (moves_of_reads operand : Cursor.Past _ _).onward
      rw [List.forall_mem_cons]
      exact ⟨only.range_of_operator operator, ih (only.onward behind) operations⟩

/-- A value that starts with a name is this name or a variable. -/
theorem NamedOnly.single_of_bare {code : Code} {x : Char} (current : c.current? = some x)
    (name : isIdStart x = true) (bare : Reads o c (.bare code) c') (ended : c'.rest = []) :
    ¬TwoPoints c.rest := by
  have noCall : (afterName c).current? ≠ some '(' := by
    intro opening
    have member := (onward_afterName c).mem_rest (List.mem_of_mem_head? opening)
    exact absurd (only _ member) (by decide)
  have run := runsWith_of_reads bare (Nat.le_refl _) c only.skipBlanks
  rw [run_readValue_named only.skipBlanks current name] at run
  rcases (run_readNamed_noCall noCall).mp run with ⟨-, -, -, rfl⟩ | ⟨-, id, read, -⟩
  · rw [← nameAt_append_rest c, ended, List.append_nil]
    exact not_twoPoints_nameChars c.rest
  · exact single_of_readVariable read ended

end

/-! ### Reading what was declared -/

section
variable {t : String} (named : VariableId.ofText t o.space = .ok id)
include named

theorem start_of_ofText : ∃ x rest, t.toList = x :: rest ∧ isIdStart x = true := by
  have first {path : List Char} (checked : VariableId.checkName path = .ok ()) (back : List Char) :
      ∃ x rest, path ++ back = x :: rest ∧ isIdStart x = true := by
    obtain ⟨starts, -⟩ := VariableId.checkName_eq_ok.mp checked
    cases path with
    | nil => cases starts
    | cons x rest => exact ⟨x, rest ++ back, rfl, starts⟩
  rcases VariableId.names_of_ofText named with ⟨-, names⟩ | ⟨front, back, text, names⟩
  · obtain ⟨-, path, -⟩ := VariableId.ofNames_eq_ok.mp names
    simpa using first path []
  · obtain ⟨space, -⟩ := VariableId.ofNames_eq_ok.mp names
    exact text ▸ first space (':' :: back)

theorem namedOnly_of_ofText : NamedOnly (.start t) := by
  intro x member
  change x ∈ t.toList at member
  rcases VariableId.names_of_ofText named with ⟨-, names⟩ | ⟨front, back, text, names⟩
  · obtain ⟨-, path, -⟩ := VariableId.ofNames_eq_ok.mp names
    exact .inl ((VariableId.checkName_eq_ok.mp path).2 x member)
  · obtain ⟨space, path, -⟩ := VariableId.ofNames_eq_ok.mp names
    rw [text, List.mem_append, List.mem_cons] at member
    rcases member with before | rfl | behind
    · exact .inl ((VariableId.checkName_eq_ok.mp space).2 x before)
    · exact .inr rfl
    · exact .inl ((VariableId.checkName_eq_ok.mp path).2 x behind)

/-- The two names around a colon, or the one without, are read to their ends. -/
theorem exists_readVariable (single : ¬TwoPoints t.toList) : ∃ m : Cursor, m.rest = [] ∧
    (readVariable o (nameAt (.start t)) 0).run (afterName (.start t)) = .ok (id, m) := by
  rcases VariableId.names_of_ofText named with ⟨noColon, names⟩ | ⟨front, back, text, names⟩
  · obtain ⟨-, path, -⟩ := VariableId.ofNames_eq_ok.mp names
    have each := (VariableId.checkName_eq_ok.mp path).2
    have whole : (Cursor.start t).rest = t.toList ++ [] := (List.append_nil _).symm
    have taken : nameAt (.start t) = t.toList := by
      rw [nameAt, whole, nameChars_append each single rfl]
    have ended := afterName_of_nameAt whole taken
    refine ⟨_, ended, run_readVariable_eq_ok.mpr (.inl ⟨?_, by rwa [taken], rfl⟩)⟩
    rw [isQualified, Cursor.current?, ended]
    rfl
  · obtain ⟨space, path, -⟩ := VariableId.ofNames_eq_ok.mp names
    obtain ⟨starts, inPath⟩ := VariableId.checkName_eq_ok.mp path
    have inSpace := (VariableId.checkName_eq_ok.mp space).2
    rw [text, twoPoints_append_colon, not_or] at single
    have taken : nameAt (.start t) = front := by
      change nameChars t.toList = front
      rw [text, nameChars_append inSpace single.1 rfl]
    have colon := afterName_of_nameAt (c := .start t) text taken
    have behind : ((afterName (.start t)).advance 1).rest = back ++ [] := by
      rw [Cursor.rest_behind colon, List.append_nil]
    have path : nameAt ((afterName (.start t)).advance 1) = back := by
      rw [nameAt, behind, nameChars_append inPath single.2 rfl]
    refine ⟨_, afterName_of_nameAt behind path,
      run_readVariable_eq_ok.mpr (.inr ⟨?_, by rwa [taken, path], rfl⟩)⟩
    rw [isQualified, Cursor.current?_of_rest colon, Cursor.next?_eq, Cursor.current?, behind]
    simpa using starts

end

/-- Code of operands with ranges between them ends with a range. -/
theorem ofChain_of_ranges {first : Code} {rest : List (BinaryOp × Code)} (some : rest ≠ [])
    (ranges : ∀ pair ∈ rest, pair.1 = .range) :
    ∃ front, Code.ofChain first rest = front ++ [.binary .range] := by
  rw [← OpTree.code_ofChain first rest]
  have operators := OpTree.operators_ofChain first rest
  cases tree : OpTree.ofChain first rest with
  | leaf code =>
    rw [tree] at operators
    exact absurd (List.map_eq_nil_iff.mp operators.symm) some
  | node op left right =>
    rw [tree] at operators
    have member : op ∈ rest.map Prod.fst := operators ▸ List.mem_append_right _ List.mem_cons_self
    obtain ⟨pair, among, rfl⟩ := List.mem_map.mp member
    exact ⟨left.code ++ right.code, by rw [← ranges pair among]; rfl⟩

section
variable {t : String} (named : VariableId.ofText t o.space = .ok id) (points : TwoPoints t.toList)
include named points

/-- As an expression, a declared text with two points in a row is a range. -/
theorem range_of_parse {code : Code} (read : parse o t = .ok code) :
    ∃ front, code = front ++ [.binary .range] := by
  have only := namedOnly_of_ofText named
  obtain ⟨x, tail, text, starts⟩ := start_of_ofText named
  obtain ⟨c', reads, ended⟩ := parse_eq_ok.mp read
  cases reads with
  | @term _ m _ _ first rest operand operations =>
    have onward := (moves_of_reads operand : Cursor.Past _ _).onward
    refine ofChain_of_ranges ?_ ((only.onward onward).range_of_operations operations)
    rintro rfl
    cases operations
    rw [Cursor.skipBlanks_skipBlanks] at ended
    have ended := (only.onward onward).rest_of_ended ended
    cases operand with
    | operand value indices =>
      have onward := (moves_of_reads value : Cursor.Past _ _).onward
      obtain ⟨-, rfl⟩ := (only.onward onward).no_indices indices
      cases value with
      | value bare =>
        rw [only.skipBlanks] at bare
        exact only.single_of_bare (Cursor.current?_of_rest text) starts bare ended points

end

/-- Compiling keeps code as it was read or puts a constant in its place. -/
theorem code_of_compile {t : String} {e : Immediate.Expression} (compiled : compile o t = .ok e) :
    ∃ code, parse o t = .ok code ∧ (e.code = code ∨ ∃ slot, e.code = [.constant slot]) := by
  obtain ⟨code, read, folds⟩ := Outcome.bind_eq_ok.mp compiled
  refine ⟨code, read, ?_⟩
  rw [← Outcome.pure_eq_ok.mp folds]
  split
  · exact code.fold_cases.imp_right fun ⟨slot, constant, _⟩ => ⟨slot, constant⟩
  · exact .inl rfl

end Expression

namespace Path

open Expression

variable {o : CompileOptions} {t : String} {id : VariableId} {q : Path}

/-- A declared text that is a path has no two points in a row. -/
theorem single_of_parse (named : VariableId.ofText t o.space = .ok id) (read : parse o t = .ok q) :
    ¬TwoPoints t.toList := by
  have only := namedOnly_of_ofText named
  obtain ⟨wraps, indices, m, c', -, base, behind, ended⟩ := parse_eq_ok.mp read
  cases base with
  | bare _ _ variable_ =>
    rw [only.skipBlanks] at variable_
    have onward := (onward_afterName _).trans (takesOnly_readVariable _ _ _ _ _ _ variable_).onward
    have only := only.onward onward
    obtain ⟨-, rfl⟩ := only.no_indices behind
    exact single_of_readVariable variable_ (only.rest_of_ended ended)
  | wrapped _ _ opening =>
    rw [only.skipBlanks, (only.onward (onward_afterName _)).eat?_eq_none (by decide)] at opening
    cases opening

/-- A declared text without two points in a row is the path of the variable it declares. -/
theorem parse_of_single (named : VariableId.ofText t o.space = .ok id) (single : ¬TwoPoints t.toList) :
    parse o t = .ok ⟨id, []⟩ := by
  have only := namedOnly_of_ofText named
  obtain ⟨x, tail, text, starts⟩ := start_of_ofText named
  obtain ⟨m, ended, variable_⟩ := exists_readVariable named single
  have base : ReadsBase o (.start t) id [] m := by
    have start : (Cursor.start t).skipBlanks = .start t := only.skipBlanks
    refine .bare ?_ ?_ ?_
    · rw [start, Cursor.isAt, Cursor.current?_of_rest (c := .start t) text]
      exact starts
    · rw [start]
      exact (only.onward (onward_afterName _)).eat?_eq_none (by decide)
    · rw [start]
      exact variable_
  have left : m.skipBlanks.rest = [] := by rw [Cursor.rest_skipBlanks, ended]; rfl
  have noIndex : m.skipBlanks.eat? ['['] = none := by
    apply Cursor.eat?_eq_none
    rw [Cursor.current?, left]
    decide
  refine parse_eq_ok.mpr ⟨[], [], m, m.skipBlanks, rfl, base, .noIndex noIndex, ?_⟩
  rw [Cursor.skipBlanks_skipBlanks, Cursor.current?, left]
  rfl

/-- A variable is read back from the text that declares it exactly when no two points stand in a row in
this text. Then the text is the path of the variable, and as an expression it does nothing but load it. With
two points in a row it is no path, and as an expression it is a range, if anything. -/
theorem parse_of_ofText (named : VariableId.ofText t o.space = .ok id) :
    (¬TwoPoints t.toList → parse o t = .ok ⟨id, []⟩ ∧
      Expression.compile o t = .ok ⟨[.variable id]⟩) ∧
    (TwoPoints t.toList → (∃ e, parse o t = .error e) ∧
      (∀ code, Expression.parse o t = .ok code → ∃ front, code = front ++ [.binary .range]) ∧
      ∀ e, Expression.compile o t = .ok e → ∀ other, e.code ≠ [.variable other]) := by
  refine ⟨fun single => ?_, fun points => ⟨?_, ?_, fun e compiled other loads => ?_⟩⟩
  · have read := parse_of_single named single
    obtain ⟨-, ⟨code⟩, compiled, rfl, -⟩ := compile_of_parse read
    exact ⟨read, compiled⟩
  · cases read : parse o t with
    | error e => exact ⟨e, rfl⟩
    | ok q => exact absurd points (single_of_parse named read)
  · exact fun code read => range_of_parse named points read
  · obtain ⟨code, read, same | ⟨slot, constant⟩⟩ := code_of_compile compiled
    · obtain ⟨front, ends⟩ := range_of_parse named points read
      have last := congrArg List.getLast? (loads.symm.trans (same.trans ends))
      simp at last
    · cases constant.symm.trans loads

/-- Neither the name of a function nor that of the literal null is in the way. -/
theorem parse_of_ofText_key :
    let id : VariableId := ⟨"key", "null.5"⟩
    VariableId.ofText "key:null.5" "global" = .ok id ∧ ¬TwoPoints "key:null.5".toList ∧
      parse {} "key:null.5" = .ok ⟨id, []⟩ ∧
      Expression.compile {} "key:null.5" = .ok ⟨[.variable id]⟩ := by
  intro id
  have named : VariableId.ofText "key:null.5" "global" = .ok id := by rfl
  have single : ¬TwoPoints "key:null.5".toList := by simp [twoPoints_cons, not_twoPoints_nil]
  exact ⟨named, single, (parse_of_ofText (o := {}) named).1 single⟩

/-- A variable with two points in its name can be declared, but the text that declares it is a range of two
other variables. -/
theorem ofText_not_parse :
    VariableId.ofText "a..b" "global" = .ok ⟨"global", "a..b"⟩ ∧
      parse {} "a..b" = .error ⟨.unexpectedChar '.', 1⟩ ∧
      Expression.compile {} "a..b" =
        .ok ⟨[.variable ⟨"global", "a"⟩, .variable ⟨"global", "b"⟩, .binary .range]⟩ := by
  exact ⟨by rfl, by rfl, by rfl⟩

end Path
end Immediate
