import Immediate.Proofs.Script.Crossing
import Immediate.Proofs.Source.Paths
import Immediate.Proofs.Trimming
/-! Lines are parted where the sides of a comparison or an assignment meet. Whatever compiles opens
its brackets and quotes before it closes them, and outside of them has no symbol but the brackets of
a shift, so a scan goes over all of it; the first symbol it finds is the one behind it. -/
namespace Immediate

/-- How many brackets a phrase closes that were opened before it. -/
def Expression.Phrase.closes : Expression.Phrase → Nat
  | .arguments _ => 1
  | _ => 0

namespace Command

open Immediate.Parser

variable {α : Type} {symbol? : Option Char → List Char → Option (α × Nat)}
variable {c m k c' : Cursor} {d : Nat} {quote : Char}

/-! ### Literals -/

theorem isPlain_of_numeral {x : Char} (written : Numeral.Written x) : isPlain x = true := by
  rcases written with ⟨radix, digit⟩ | mark
  · exact isPlain_of_class digit rfl
  · have each : ['l', 'L', 'b', 'B', 's', 'S', 'f', 'F', 'x', 'X', '+', '-', '.'].all isPlain =
        true := rfl
    exact List.all_eq_true.mp each x mark

theorem isPlain_of_named {x : Char} (named : Expression.Named x) : isPlain x = true := by
  rcases named with inName | rfl
  · exact isPlain_of_class inName rfl
  · rfl

theorem isFlat_of_typeName {x : Char} (written : TypeName.Written x) : isFlat x = true := by
  rcases written with inName | blank | mark
  · exact isFlat_of_class inName rfl
  · exact isFlat_of_isPlain (isPlain_of_isBlank blank)
  · have each : ['<', '>', ',', '?'].all isFlat = true := rfl
    exact List.all_eq_true.mp each x mark

/-- The digits of a unit are neither quotes nor backslashes. -/
theorem crossing_readHexUnit (isQuote : quote = '"' ∨ quote = '\'') {start : Nat} {u : UInt16}
    (run : (Quoted.readHexUnit start).run c = .ok (u, c')) :
    Crossing symbol? (.quoted d quote) c (.quoted d quote) c' := by
  rw [Quoted.readHexUnit_eq, run_get_bind] at run
  dsimp only at run
  split at run
  · rename_i digits
    cases run
    cases found : Quoted.nextBytes? c.rest 4 with
    | none =>
      rw [found] at digits
      cases digits.1
    | some bytes =>
      rw [found] at digits
      have four : bytes.length = 4 := digits.1
      have crossed : Crosses symbol? (.quoted d quote) bytes (.quoted d quote) := by
        apply crosses_of_all
        intro x member
        have digit : isDigitIn 16 x = true := List.all_eq_true.mp digits.2 x member
        apply crosses_quoted
        · rintro rfl
          rcases isQuote with rfl | rfl <;> cases digit
        · rintro rfl
          cases digit
      have past := crossing_advance (Quoted.starts_nextBytes? found) crossed
      rwa [four] at past
  · cases run

theorem crossing_readEscape (isQuote : quote = '"' ∨ quote = '\'') {u : UInt16}
    (backslash : c.current? = some '\\') (run : Quoted.readEscape.run c = .ok (u, c')) :
    Crossing symbol? (.quoted d quote) c (.quoted d quote) c' := by
  rw [Quoted.readEscape, run_get_bind, run_modify_bind, run_get_bind] at run
  cases current : (c.advance 1).current? with
  | none =>
    rw [current] at run
    cases run
  | some x =>
    rw [current] at run
    have escape : Crossing symbol? (.quoted d quote) c (.quoted d quote)
        ((c.advance 1).advance 1) := by
      have starts : ['\\', x] <+: c.rest := by
        obtain ⟨offset, rest⟩ := c
        rcases rest with _ | ⟨y, _ | ⟨z, rest⟩⟩ <;> simp_all [Cursor.current?, Cursor.advance]
      rw [Cursor.advance_advance]
      exact crossing_advance starts crosses_escape
    dsimp only at run
    rw [run_set_bind] at run
    split at run
    · exact escape.trans (crossing_readHexUnit isQuote run)
    · split at run
      · cases run
        exact escape
      · cases run

theorem crossing_readUnits {start fuel : Nat} {units : List UInt16}
    (run : (Quoted.readUnits start fuel).run c = .ok (units, c')) :
    Crossing symbol? (.quoted d '"') c (.outside d) c' := by
  induction fuel generalizing c units with
  | zero => cases run
  | succ fuel ih =>
    rw [Quoted.readUnits, run_get_bind] at run
    cases current : c.current? with
    | none =>
      rw [current] at run
      cases run
    | some x =>
      rw [current] at run
      dsimp only at run
      split at run
      · rename_i closing
        cases run
        subst closing
        exact crossing_of_current? current (crosses_unquote (.inl rfl))
      · split at run
        · rename_i backslash
          subst backslash
          obtain ⟨u, m, escape, run⟩ := run_bind_eq_ok.mp run
          obtain ⟨others, k, ranOthers, run⟩ := run_bind_eq_ok.mp run
          cases run
          exact (crossing_readEscape (.inl rfl) current escape).trans (ih ranOthers)
        · rename_i noQuote noEscape
          rw [run_set_bind] at run
          obtain ⟨others, k, ranOthers, run⟩ := run_bind_eq_ok.mp run
          cases run
          exact (crossing_of_current? current (crosses_quoted noQuote noEscape)).trans
            (ih ranOthers)

theorem crossing_readText {v : Value} (opening : c.current? = some '"')
    (run : Quoted.readText.run c = .ok (v, c')) :
    Crossing symbol? (.outside d) c (.outside d) c' := by
  rw [Quoted.readText, run_get_bind, run_set_bind] at run
  obtain ⟨units, m, ranUnits, run⟩ := run_bind_eq_ok.mp run
  have behind : m = c' := by
    split at run
    · exact (run_pure_eq_ok.mp run).2
    · cases run
  rw [← behind]
  have opened : Crossing symbol? (.outside d) c (.quoted d '"') (c.advance 1) :=
    crossing_of_current? opening (crosses_quote (.inl rfl))
  exact opened.trans (crossing_readUnits ranUnits)

theorem crossing_readUnit {start : Nat} {u : UInt16}
    (run : (Quoted.readUnit start).run c = .ok (u, c')) :
    Crossing symbol? (.quoted d '\'') c (.quoted d '\'') c' := by
  rw [Quoted.readUnit, run_get_bind] at run
  cases current : c.current? with
  | none =>
    rw [current] at run
    cases run
  | some x =>
    rw [current] at run
    dsimp only at run
    split at run
    · rename_i backslash
      subst backslash
      exact crossing_readEscape (.inr rfl) current run
    · rename_i noEscape
      split at run
      · obtain ⟨noQuote, run⟩ := (run_check_eq_ok fun c => ⟨_, rfl⟩).mp run
        cases run
        exact crossing_of_current? current (crosses_quoted noQuote noEscape)
      · cases run

theorem crossing_readChar {v : Value} (opening : c.current? = some '\'')
    (run : Quoted.readChar.run c = .ok (v, c')) :
    Crossing symbol? (.outside d) c (.outside d) c' := by
  rw [Quoted.readChar, run_get_bind, run_set_bind] at run
  obtain ⟨u, m, ranUnit, run⟩ := run_bind_eq_ok.mp run
  have inside : Crossing symbol? (.outside d) c (.quoted d '\'') m :=
    (crossing_of_current? opening (crosses_quote (.inr rfl))).trans (crossing_readUnit ranUnit)
  rcases run_eat_bind_eq_ok.mp run with ⟨k, closing, run⟩ | ⟨-, impossible⟩
  · cases run
    exact inside.trans (crossing_of_eat? closing (crosses_unquote (.inr rfl)))
  · cases impossible

theorem crossing_of_literal (sparing : Sparing symbol?) {v : Value}
    (literal : Expression.Literal c v c') :
    Crossing symbol? (.outside d) c (.outside d) c' := by
  have numeral (read : Numeral.read.run c = .ok (v, c')) :
      Crossing symbol? (.outside d) c (.outside d) c' :=
    crossing_of_through (Numeral.through_read read).1 fun _ written =>
      crosses_plain sparing (isPlain_of_numeral written)
  cases literal with
  | signed _ _ _ read => exact numeral read
  | numeral _ _ read => exact numeral read
  | text current read => exact crossing_readText current read
  | char current read => exact crossing_readChar current read

/-! ### Expressions -/

open Expression

/-- The symbol of an operator stands outside of quotes and brackets and is found by no scan. -/
theorem crosses_operator (sparing : Sparing symbol?) (op : BinaryOp) :
    Crosses symbol? (.outside d) op.symbol.toList (.outside d) := by
  by_cases shift : op = .shl ∨ op = .shr
  · rcases shift with rfl | rfl
    · exact crosses_shift sparing (.inl rfl)
    · exact crosses_shift sparing (.inr rfl)
  · have each : op.symbol.toList.all isPlain = true := by
      cases op <;> first | rfl | simp at shift
    apply crosses_of_all
    intro x member
    exact crosses_plain sparing (List.all_eq_true.mp each x member)

theorem crossing_operator (sparing : Sparing symbol?) {stop : Bool} {op : BinaryOp}
    (operator : operatorAt? stop c.skipBlanks = some op) :
    Crossing symbol? (.outside d) c (.outside d)
      (c.skipBlanks.advance op.symbol.length) := by
  have crossed := crossing_advance (isPrefixOf_of_operatorAt? operator)
    (crosses_operator (d := d) sparing op)
  rw [String.length_toList] at crossed
  exact (crossing_skipBlanks sparing c).trans crossed

/-- A single character that is no part of a symbol, behind blanks. -/
theorem crossing_mark (sparing : Sparing symbol?) {x : Char}
    (eaten : c.skipBlanks.eat? [x] = some c') (plain : isPlain x = true) :
    Crossing symbol? (.outside d) c (.outside d) c' :=
  crossing_of_blanks_eat? sparing eaten (crosses_plain sparing plain)

/-- What stands between two brackets of a kind, the closing one behind blanks. -/
theorem crossing_brackets (sparing : Sparing symbol?) {x y : Char} (opening : c.eat? [x] = some m)
    (inside : Crossing symbol? (.outside (d + 1)) m (.outside (d + 1)) k)
    (closing : k.skipBlanks.eat? [y] = some c') (pair : (x, y) ∈ brackets) :
    Crossing symbol? (.outside d) c (.outside d) c' := by
  have before : Crossing symbol? (.outside d) c (.outside (d + 1)) m :=
    crossing_of_eat? opening (crosses_opening pair)
  have behind : Crossing symbol? (.outside (d + 1)) k (.outside d) c' :=
    crossing_of_blanks_eat? sparing closing (crosses_closing pair)
  exact before.trans (inside.trans behind)

theorem crossing_cast (sparing : Sparing symbol?) {registry : Registry} {t : Ty}
    (opening : c.current? = some '(')
    (cast : castAt? registry (c.advance 1) = .ok (some (t, c'))) :
    Crossing symbol? (.outside d) c (.outside d) c' := by
  obtain ⟨m, closed, read, eaten, rfl⟩ := parts_of_castAt? cast
  have type : Crossing symbol? (.outside (d + 1)) (c.advance 1) (.outside (d + 1)) m :=
    crossing_of_through read fun _ written => crosses_nested (isFlat_of_typeName written)
  have whole := crossing_brackets sparing (Cursor.eat?_eq_some opening) type eaten (by decide)
  exact whole.trans (crossing_skipBlanks sparing closed)

theorem crossing_name (sparing : Sparing symbol?) (c : Cursor) :
    Crossing symbol? (.outside d) c (.outside d) (afterName c) :=
  crossing_of_through (through_name c) fun _ named => crosses_plain sparing (isPlain_of_named named)

/-- A scan goes over every phrase, at whatever depth it starts. -/
theorem crossing_of_reads (sparing : Sparing symbol?) {o : CompileOptions} {phrase : Phrase}
    (reads : Reads o c phrase c') :
    ∀ d, Crossing symbol? (.outside (d + phrase.closes)) c (.outside d) c' := by
  have blanks (c : Cursor) (d : Nat) := crossing_skipBlanks (d := d) sparing c
  induction reads with
  | term _ _ operand operations => exact fun d => (operand d).trans (operations d)
  | noOperation => exact blanks _
  | operation operator _ _ operand operations =>
    intro d
    exact (crossing_operator sparing operator).trans ((operand d).trans (operations d))
  | operand _ _ value indices => exact fun d => (value d).trans (indices d)
  | noIndex => exact blanks _
  | furtherIndex _ _ index indices => exact fun d => (index d).trans (indices d)
  | @allContents c m _ opening closing =>
    intro d
    have inside : Crossing symbol? (.outside (d + 1)) m (.outside (d + 1)) m := .refl m
    exact (blanks c d).trans
      (crossing_brackets sparing opening inside closing (by decide))
  | @index c m _ _ _ opening _ _ _ _ closing term =>
    intro d
    have inside := (blanks m (d + 1)).trans (term (d + 1))
    exact (blanks c d).trans
      (crossing_brackets sparing opening inside closing (by decide))
  | @optionalIndex c m _ _ _ _ opening _ _ _ lenient closing term =>
    intro d
    have inside := (blanks m (d + 1)).trans (term (d + 1))
    have marked := inside.trans (crossing_mark sparing lenient rfl)
    exact (blanks c d).trans
      (crossing_brackets sparing opening marked closing (by decide))
  | @range c m k l _ _ _ _ opening _ _ range _ closing low high =>
    intro d
    have points := crossing_of_blanks_eat? (d := d + 1) sparing range
      (crosses_operator sparing .range)
    have inside := (blanks m (d + 1)).trans (low (d + 1))
    have second := inside.trans (points.trans (high (d + 1)))
    exact (blanks c d).trans
      (crossing_brackets sparing opening second closing (by decide))
  | value _ bare => exact fun d => (blanks _ d).trans (bare d)
  | literal literal => exact fun d => crossing_of_literal sparing literal
  | negation minus _ _ value =>
    intro d
    have sign : isPlain '-' = true := rfl
    exact (crossing_of_current? minus (crosses_plain sparing sign)).trans (value d)
  | cast opening cast _ value =>
    exact fun d => (crossing_cast sparing opening cast).trans (value d)
  | parens opening _ _ closing term =>
    intro d
    exact crossing_brackets sparing (Cursor.eat?_eq_some opening) (term (d + 1)) closing (by decide)
  | noElements opening closing =>
    intro d
    exact crossing_brackets sparing (Cursor.eat?_eq_some opening) (.refl _) closing (by decide)
  | entry opening _ _ colon _ closing first second =>
    intro d
    have key := (blanks _ (d + 1)).trans (first (d + 1))
    have both := key.trans ((crossing_mark sparing colon rfl).trans (second (d + 1)))
    exact crossing_brackets sparing (Cursor.eat?_eq_some opening) both closing (by decide)
  | list opening _ _ _ _ closing first elements =>
    intro d
    have one := (blanks _ (d + 1)).trans (first (d + 1))
    have all := one.trans ((blanks _ (d + 1)).trans (elements (d + 1)))
    exact crossing_brackets sparing (Cursor.eat?_eq_some opening) all closing (by decide)
  | noElement => exact fun d => .refl _
  | element comma _ _ term elements =>
    intro d
    have sign : isPlain ',' = true := rfl
    have before := crossing_of_eat? comma (crosses_plain (d := d) sparing sign)
    exact before.trans ((term d).trans ((blanks _ d).trans (elements d)))
  | noArguments _ _ opening closing =>
    intro d
    exact (crossing_name sparing _).trans (crossing_brackets sparing (Cursor.eat?_eq_some opening)
      (.refl _) closing (by decide))
  | call _ _ opening _ _ _ arguments =>
    intro d
    have before : Crosses symbol? (.outside d) ['('] (.outside (d + 1)) :=
      crosses_opening (y := ')') (by decide)
    have inside := (blanks _ (d + 1)).trans (arguments d)
    exact (crossing_name sparing _).trans ((crossing_of_current? opening before).trans inside)
  | lastArgument _ _ closing term =>
    intro d
    have behind : Crosses symbol? (.outside (d + 1)) [')'] (.outside d) :=
      crosses_closing (x := '(') (by decide)
    exact (term (d + 1)).trans (crossing_of_blanks_eat? sparing closing behind)
  | argument _ comma _ term arguments =>
    intro d
    exact (term (d + 1)).trans ((crossing_mark sparing comma rfl).trans (arguments d))
  | null => exact fun d => crossing_name sparing _
  | loaded _ _ _ _ read =>
    intro d
    have further := crossing_of_through (takesOnly_readVariable _ _ _ _ _ _ read)
      fun _ named => crosses_plain (d := d) sparing (isPlain_of_named named)
    exact (crossing_name sparing _).trans further

/-- A scan goes over what compiles, from where it starts after its blanks to its end. -/
theorem crosses_of_parse (sparing : Sparing symbol?) {o : CompileOptions} {s : String} {code : Code}
    (read : Expression.parse o s = .ok code) :
    s.toList.dropWhile Text.isBlank ≠ [] ∧
      Crosses symbol? (.outside d) (s.toList.dropWhile Text.isBlank) (.outside d) := by
  obtain ⟨c', reads, ended⟩ := parse_eq_ok.mp read
  have start := (Cursor.start s).rest_skipBlanks
  change _ = s.toList.dropWhile Text.isBlank at start
  have further : Reads o (Cursor.start s).skipBlanks (.term false code) c' := by
    cases reads with
    | term operand operations =>
      cases operand with
      | operand value indices =>
        cases value with
        | value bare =>
          refine .term (.operand (.value ?_) indices) operations
          rwa [Cursor.skipBlanks_skipBlanks]
  obtain ⟨text, before, crossed⟩ :=
    (crossing_of_reads sparing further d).trans (crossing_skipBlanks sparing c')
  have nothing : c'.skipBlanks.rest = [] := List.head?_eq_none_iff.mp ended
  rw [nothing, List.append_nil, start] at before
  rw [before]
  refine ⟨?_, crossed⟩
  rintro rfl
  have past : Cursor.Past _ _ := moves_of_reads further
  have less := past.less
  rw [start, before] at less
  cases less

/-! ### Lines -/

/-- A symbol behind text that a scan goes over and a blank is found, with the text before it. -/
theorem partAt_of_crosses {text symbol rest : List Char} {a : α} (sparing : Sparing symbol?)
    (crossed : Crosses symbol? (.outside 0) text (.outside 0)) (left : symbol ≠ [])
    (sign : ∀ x ∈ symbol, x ∈ signs)
    (found : symbol? (some ' ') (symbol ++ rest) = some (a, symbol.length)) :
    partAt symbol? ⟨0, none, false⟩ none (text ++ ' ' :: (symbol ++ rest)) =
      some (text ++ [' '], a, rest) := by
  have blank : Crosses symbol? (.outside 0) [' '] (.outside 0) :=
    crosses_plain sparing (isPlain_of_isBlank rfl)
  have before := crossed.append blank none (symbol ++ rest)
  rw [List.append_assoc] at before
  refine before.trans ?_
  obtain ⟨x, more, rfl⟩ := List.exists_cons_of_ne_nil left
  have top : (Nesting.outside 0).isTop x = true := by
    have each : signs.all (Nesting.outside 0).isTop = true := rfl
    exact List.all_eq_true.mp each x (sign x List.mem_cons_self)
  rw [List.cons_append] at found ⊢
  simp [partAt, top, found]

/-- The word of a line takes the text behind it without the blanks around this text. -/
theorem parse_word {word rest : List Char} {x : Char}
    (visible : (x :: word).all (!Text.isBlank ·) = true) (noComment : x ≠ '#')
    (something : Text.trimChars rest ≠ []) :
    parse (x :: word ++ ' ' :: rest) =
      some <$> ofWord (String.ofList (x :: word)) (Text.trimChars rest) := by
  have kept := List.all_eq_true.mp visible
  have inside : Text.trimEnd rest ≠ [] := by
    intro nothing
    rw [← Text.trimChars_trimEnd, nothing] at something
    exact something rfl
  have line : Text.trimChars (x :: word ++ ' ' :: rest) =
      x :: word ++ ' ' :: Text.trimEnd rest := by
    have whole : Text.trimEnd ((x :: word ++ [' ']) ++ rest) =
        (x :: word ++ [' ']) ++ Text.trimEnd rest := Text.trimEnd_append inside
    have start : ¬Text.isBlank x = true := by simpa using kept x List.mem_cons_self
    rw [Text.trimChars_eq, List.cons_append, List.dropWhile_cons_of_neg start]
    simpa using whole
  have cut : Text.cutAt Text.isBlank (x :: word ++ ' ' :: Text.trimEnd rest) =
      some (x :: word, Text.trimEnd rest) := by
    have blank : Text.isBlank ' ' = true := rfl
    rw [Text.cutAt, List.dropWhile_append_of_pos kept, List.takeWhile_append_of_pos kept]
    simp [blank]
  unfold parse
  rw [line]
  split
  · rename_i impossible
    cases impossible
  · rename_i comment
    exact absurd (List.cons.inj comment).1 noComment
  · rw [cut]
    dsimp only
    rw [Text.trimChars_trimEnd]

theorem ne_nil_of_partAt {n : Nesting} {before : Option Char} {cs : List Char}
    {parts : List Char × α × List Char} (parted : partAt symbol? n before cs = some parts) :
    cs ≠ [] := by
  rintro rfl
  cases parted

/-- A line is parted at the symbol behind a source that compiles. -/
theorem partAt_of_parse (sparing : Sparing symbol?) {o : CompileOptions} {s : String} {code : Code}
    (read : Expression.parse o s = .ok code) {symbol r : List Char} {a : α} (written : symbol ≠ [])
    (sign : symbol.all (signs.contains ·) = true)
    (found : ∀ rest, rest <+: ' ' :: r →
      symbol? (some ' ') (symbol ++ rest) = some (a, symbol.length)) :
    ∃ left right, partAt symbol? ⟨0, none, false⟩ none
        (Text.trimChars (s.toList ++ ' ' :: (symbol ++ ' ' :: r))) = some (left, a, right) ∧
      trimmed left = Text.trim s ∧ trimmed right = trimmed r := by
  have signed : ∀ x ∈ symbol, x ∈ signs := by simpa using sign
  obtain ⟨left, crossed⟩ := crosses_of_parse (d := 0) sparing read
  revert left crossed
  generalize source : s.toList.dropWhile Text.isBlank = text
  intro left crossed
  have line : Text.trimChars (s.toList ++ ' ' :: (symbol ++ ' ' :: r)) =
      text ++ ' ' :: (symbol ++ Text.trimEnd (' ' :: r)) := by
    obtain ⟨front, x, rfl⟩ : ∃ front x, symbol = front ++ [x] :=
      ⟨_, _, (List.dropLast_concat_getLast written).symm⟩
    have visible : Text.isBlank x = false := by
      have each : signs.all (!Text.isBlank ·) = true := rfl
      simpa using List.all_eq_true.mp each x (signed x (by simp))
    have kept : Text.trimEnd ((text ++ ' ' :: front) ++ x :: ' ' :: r) =
        (text ++ ' ' :: front) ++ x :: Text.trimEnd (' ' :: r) := Text.trimEnd_append_cons visible
    rw [Text.trimChars_eq, List.dropWhile_append, source, if_neg (by simpa using left)]
    simpa using kept
  refine ⟨text ++ [' '], Text.trimEnd (' ' :: r), ?_, ?_, ?_⟩
  · rw [line]
    exact partAt_of_crosses sparing crossed written signed (found _ (Text.starts_trimEnd _))
  · have blank : Text.trimChars (text ++ [' ']) = Text.trimChars text :=
      Text.trimChars_append_blanks (List.all_eq_true.mp rfl)
    rw [trimmed, blank, ← source, Text.trimChars_dropWhile]
    rfl
  · rw [trimmed, Text.trimChars_trimEnd]
    rfl

/-- The symbol of a comparison is found behind a blank, if nothing but a blank may follow it. -/
theorem comparison?_symbol (op : CompareOp) {r rest : List Char} (behind : rest <+: ' ' :: r) :
    comparison? (some ' ') (op.symbol.toList ++ rest) = some (op, op.symbol.toList.length) := by
  have blank : rest = [] ∨ ∃ more, rest = ' ' :: more := by
    rcases List.prefix_cons_iff.mp behind with rfl | ⟨more, rfl, -⟩
    · exact .inl rfl
    · exact .inr ⟨more, rfl⟩
  rcases blank with rfl | ⟨more, rfl⟩
  · cases op <;> rfl
  · cases op <;> rfl

/-- Whatever compiles is found again as the left side of a comparison, and whatever compiles to a
path as the target of an assignment: lines are parted at the symbol between their two sides. -/
theorem parse_of_compiled (o : CompileOptions) :
    (∀ left e, Expression.compile o left = .ok e → ∀ (op : CompareOp) (right : String),
      parse ("compare " ++ left ++ " " ++ op.symbol ++ " " ++ right).toList =
        .ok (some (.compare (Text.trim left) op (Text.trim right)))) ∧
      ∀ path q, Path.parse o path = .ok q → ∀ expression : String,
        parse ("set " ++ path ++ " = " ++ expression).toList =
          .ok (some (.set (Text.trim path) (Text.trim expression))) := by
  constructor
  · intro left e compiled op right
    obtain ⟨code, read, -⟩ := Outcome.bind_eq_ok.mp compiled
    have sign : op.symbol.toList.all (signs.contains ·) = true := by cases op <;> rfl
    have written : op.symbol.toList ≠ [] := by cases op <;> decide
    obtain ⟨l, r, parted, before, behind⟩ := partAt_of_parse sparing_comparison? read written sign
      fun rest follows => comparison?_symbol (r := right.toList) op follows
    have line : ("compare " ++ left ++ " " ++ op.symbol ++ " " ++ right).toList =
        "compare".toList ++ ' ' ::
          (left.toList ++ ' ' :: (op.symbol.toList ++ ' ' :: right.toList)) := by
      simp [String.toList_append]
    rw [line]
    refine (parse_word rfl (by decide) (ne_nil_of_partAt parted)).trans ?_
    change some <$> ofWord "compare" _ = _
    simp only [ofWord, parted, before]
    rw [behind]
    rfl
  · intro path q compiled expression
    obtain ⟨l, r, parted, before, behind⟩ := partAt_of_parse sparing_assignmentSign?
      (Path.expression_of_parse compiled) (by decide : ['='] ≠ []) rfl
      fun rest (_ : rest <+: ' ' :: expression.toList) => rfl
    have line : ("set " ++ path ++ " = " ++ expression).toList =
        "set".toList ++ ' ' :: (path.toList ++ ' ' :: (['='] ++ ' ' :: expression.toList)) := by
      simp [String.toList_append]
    rw [line]
    refine (parse_word rfl (by decide) (ne_nil_of_partAt parted)).trans ?_
    change some <$> ofWord "set" _ = _
    simp only [ofWord, parted, before]
    rw [behind]
    rfl

/-- Brackets and signs in quotes, a cast and a shift do not part a line. -/
theorem parse_of_compiled_quoted :
    let left := "(list<int>)m['\"' << 2]"
    let path := " m[\"] = \\\"\"]"
    (∃ e, Expression.compile {} left = .ok e) ∧ (∃ q, Path.parse {} path = .ok q) ∧
      parse ("compare " ++ left ++ " " ++ CompareOp.le.symbol ++ " " ++ "x < 3 ").toList =
        .ok (some (.compare left .le "x < 3")) ∧
      parse ("set " ++ path ++ " = " ++ "y = 1").toList =
        .ok (some (.set "m[\"] = \\\"\"]" "y = 1")) := by
  intro left path
  have compiled : ∃ e, Expression.compile {} left = .ok e := by
    have spelled : ∃ code, Expression.parse {} left = .ok code := ⟨_, by unfold left; rfl⟩
    obtain ⟨code, spelled⟩ := spelled
    exact ⟨_, Outcome.bind_eq_ok.mpr ⟨code, spelled, rfl⟩⟩
  have read : ∃ q, Path.parse {} path = .ok q := ⟨_, by unfold path; rfl⟩
  obtain ⟨e, compiled⟩ := compiled
  obtain ⟨q, read⟩ := read
  have parted := parse_of_compiled {}
  have bare : Text.trim left = left := by unfold left; rfl
  have behind : Text.trim "x < 3 " = "x < 3" := by rfl
  have blank : Text.trim path = "m[\"] = \\\"\"]" := by unfold path; rfl
  have same : Text.trim "y = 1" = "y = 1" := by rfl
  refine ⟨⟨e, compiled⟩, ⟨q, read⟩, ?_, ?_⟩
  · rw [parted.1 left e compiled .le "x < 3 ", bare, behind]
  · rw [parted.2 path q read "y = 1", blank, same]

end Command

end Immediate
