import Mathlib.Data.Nat.Digits.Defs
import Immediate.Proofs.Source.Moving
/-! Integers in source text. A reader that takes a sign, the mark of a radix, digits and a letter one
after another finds in an integer just the parts it was written with, however many digits it has, unless
what follows continues it. What it makes of them is the number modulo the size of the range, if the
number is in range at all: decimal ones in that of signed integers, the others in that of bit patterns. -/
namespace Immediate

open Immediate.Parser

/-! ### Digits -/

/-- Digits are counted up from the first one as positional notation counts them from the last. -/
theorem digitsValue_eq_ofDigits (radix : Nat) (cs : List Char) :
    digitsValue radix cs = Nat.ofDigits radix (cs.filterMap (digitValue? radix)).reverse := by
  rw [Nat.ofDigits_eq_foldr, List.foldr_reverse, digitsValue]
  congr 1
  funext total digit
  rw [Nat.mul_comm, Nat.add_comm]
  rfl

theorem digitValue?_of_isDigit {x : Char} (digit : x.isDigit = true) :
    digitValue? 10 x = some (x.toNat - '0'.toNat) := by
  obtain ⟨low, high⟩ := Char.isDigit_iff_toNat.mp digit
  have least : '0' ≤ x := UInt32.le_iff_toNat_le.mpr low
  have greatest : x ≤ '9' := UInt32.le_iff_toNat_le.mpr high
  have small : x.toNat - '0'.toNat < 10 := by
    change x.toNat ≤ 57 at high
    change x.toNat - 48 < 10
    omega
  rw [digitValue?, if_pos ⟨least, greatest⟩]
  exact Option.filter_some_pos (by simpa using small)

theorem isDigitIn_of_isDigit {x : Char} (digit : x.isDigit = true) : isDigitIn 10 x = true := by
  rw [isDigitIn, digitValue?_of_isDigit digit]
  rfl

/-- The digits of radices up to ten are decimal ones. -/
theorem isDigit_of_isDigitIn {radix : Nat} {x : Char} (small : radix ≤ 10)
    (held : isDigitIn radix x = true) : x.isDigit = true ∧ x.toNat - '0'.toNat < radix := by
  obtain ⟨digit, found⟩ := Option.isSome_iff_exists.mp held
  obtain ⟨value, less⟩ := Option.filter_eq_some_iff.mp found
  rw [decide_eq_true_eq] at less
  split at value
  · rename_i between
    cases value
    exact ⟨Char.isDigit_iff_toNat.mpr
      ⟨UInt32.le_iff_toNat_le.mp between.1, UInt32.le_iff_toNat_le.mp between.2⟩, less⟩
  · split at value
    · cases value
      omega
    · split at value
      · cases value
        omega
      · cases value

theorem eq_of_isDigitIn_two {x : Char} (held : isDigitIn 2 x = true) : x = '0' ∨ x = '1' := by
  obtain ⟨digit, less⟩ := isDigit_of_isDigitIn (by decide) held
  obtain ⟨low, -⟩ := Char.isDigit_iff_toNat.mp digit
  change 48 ≤ x.toNat at low
  change x.toNat - 48 < 2 at less
  rcases (by omega : x.toNat = 48 ∨ x.toNat = 49) with code | code
  · exact .inl (Char.toNat_inj.mp code)
  · exact .inr (Char.toNat_inj.mp code)

/-! ### The text of an integer -/

namespace Numeral

/-- The signs, and whether they make a number negative. -/
inductive Signed : (negative : Bool) → List Char → Prop where
  | bare : Signed false []
  | plus : Signed false ['+']
  | minus : Signed true ['-']

/-- What marks the radix of the digits behind it. -/
inductive Marked : (radix : Nat) → List Char → Prop where
  | decimal : Marked 10 []
  | hexadecimal {x : Char} (letter : x = 'x' ∨ x = 'X') : Marked 16 ['0', x]
  | binary {x : Char} (letter : x = 'b' ∨ x = 'B') : Marked 2 ['0', x]
  | octal : Marked 8 ['0']

/-- The letters that select a width. Behind hexadecimal digits only that of the widest integers is
taken. -/
inductive Suffixed (radix : Nat) : Width → List Char → Prop where
  | bare : Suffixed radix .int []
  | long {x : Char} (letter : x = 'l' ∨ x = 'L') : Suffixed radix .long [x]
  | byte {x : Char} (other : radix ≠ 16) (letter : x = 'b' ∨ x = 'B') : Suffixed radix .byte [x]
  | short {x : Char} (other : radix ≠ 16) (letter : x = 's' ∨ x = 'S') : Suffixed radix .short [x]

/-- An integer as it is written. A decimal one that starts with a zero is zero. -/
structure IntegerText where
  negative : Bool
  radix : Nat
  width : Width
  sign : List Char
  mark : List Char
  digits : List Char
  suffix : List Char
  signed : Signed negative sign
  marked : Marked radix mark
  suffixed : Suffixed radix width suffix
  nonempty : digits ≠ []
  each : ∀ x ∈ digits, isDigitIn radix x = true
  leading : radix = 10 → digits.head? = some '0' → digits = ['0']

namespace IntegerText

/-- All its characters. -/
def chars (t : IntegerText) : List Char := t.sign ++ (t.mark ++ (t.digits ++ t.suffix))

/-- The number its digits spell, the last one counting ones. -/
def magnitude (t : IntegerText) : Nat :=
  Nat.ofDigits t.radix (t.digits.filterMap (digitValue? t.radix)).reverse

/-- The number it is, sign included. -/
def value (t : IntegerText) : Int := if t.negative then -t.magnitude else t.magnitude

/-- A decimal integer must be one of those that its width has, any other may have all its bits set. -/
def InRange (t : IntegerText) : Prop :=
  if t.radix = 10 then
    -2 ^ (t.width.bits - 1) ≤ t.value ∧ t.value ≤ 2 ^ (t.width.bits - 1) - 1
  else t.magnitude < 2 ^ t.width.bits

instance (t : IntegerText) : Decidable t.InRange :=
  inferInstanceAs (Decidable (if t.radix = 10 then _ else _))

/-- What continues an integer behind its last character: more digits, a letter that selects a kind, a
point that does not start a range, and behind a zero what makes it the mark of another radix. -/
inductive Continued (t : IntegerText) : List Char → Prop where
  | digit {x : Char} {rest : List Char} (bare : t.suffix = []) (held : isDigitIn t.radix x = true) :
    Continued t (x :: rest)
  | letter {x : Char} {rest : List Char} (bare : t.suffix = [])
    (held : (suffix? t.radix x).isSome = true) : Continued t (x :: rest)
  | point {rest : List Char} (bare : t.suffix = []) (held : t.radix = 10 ∨ t.radix = 16)
    (single : rest.head? ≠ some '.') : Continued t ('.' :: rest)
  | hexadecimal {x : Char} {rest : List Char} (bare : t.suffix = []) (decimal : t.radix = 10)
    (zero : t.digits = ['0']) (held : x = 'x' ∨ x = 'X') : Continued t (x :: rest)
  | binary {x y : Char} {rest : List Char} (marks : t.suffix = [x]) (letter : x = 'b' ∨ x = 'B')
    (decimal : t.radix = 10) (zero : t.digits = ['0']) (held : y = '0' ∨ y = '1') :
    Continued t (y :: rest)

end IntegerText

/-! ### Reading the parts -/

variable {c m : Cursor} {negative : Bool} {radix : Nat} {width : Width} {tail : List Char}

/-- What the letter of a width selects; integers without one are 32 bits wide. -/
def suffixOf : Width → Option Suffix
  | .int => none
  | width => some (.integer width)

theorem run_readSign_of_bare (noMinus : c.current? ≠ some '-') (noPlus : c.current? ≠ some '+') :
    readSign.run c = .ok (false, c) := by
  have plus : (discard (eat ['+'])).run c = .ok ((), c) := by
    change (eat ['+'] >>= fun _ => pure ()).run c = _
    rw [run_bind (run_eat_of_none (Cursor.eat?_eq_none noPlus))]
    rfl
  rw [readSign, run_bind (run_eat_of_none (Cursor.eat?_eq_none noMinus)),
    if_neg Bool.false_ne_true, run_bind plus]
  rfl

theorem run_readSign_of_plus (current : c.current? = some '+') :
    readSign.run c = .ok (false, c.advance 1) := by
  have noMinus : c.current? ≠ some '-' := by
    rw [current]
    decide
  have plus : (discard (eat ['+'])).run c = .ok ((), c.advance 1) := by
    change (eat ['+'] >>= fun _ => pure ()).run c = _
    rw [run_bind (run_eat_of_some (Cursor.eat?_eq_some current))]
    rfl
  rw [readSign, run_bind (run_eat_of_none (Cursor.eat?_eq_none noMinus)),
    if_neg Bool.false_ne_true, run_bind plus]
  rfl

theorem run_readSign_of_minus (current : c.current? = some '-') :
    readSign.run c = .ok (true, c.advance 1) := by
  rw [readSign, run_bind (run_eat_of_some (Cursor.eat?_eq_some current)), if_pos rfl]
  rfl

theorem run_readSign {sign back : List Char} (signed : Signed negative sign)
    (here : c.rest = sign ++ back) (front : back.head?.any (isDigitIn 10) = true) :
    readSign.run c = .ok (negative, c.advance sign.length) := by
  cases signed with
  | bare =>
    have digit (x : Char) (current : c.current? = some x) : isDigitIn 10 x = true := by
      change c.rest.head? = some x at current
      rw [here] at current
      rw [show back.head? = some x from current] at front
      exact front
    exact run_readSign_of_bare (fun minus => nomatch digit '-' minus)
      fun plus => nomatch digit '+' plus
  | plus => exact run_readSign_of_plus (Cursor.current?_of_rest here)
  | minus => exact run_readSign_of_minus (Cursor.current?_of_rest here)

theorem radix_of_marked {mark : List Char} (marked : Marked radix mark) :
    radix = 10 ∨ radix = 16 ∨ radix = 2 ∨ radix = 8 := by
  cases marked <;> simp

/-- A letter that selects a width is no digit. -/
theorem head_of_suffixed {mark suffix : List Char} {x : Char} (marked : Marked radix mark)
    (suffixed : Suffixed radix width suffix) (first : suffix.head? = some x) :
    isDigitIn radix x = false ∧ x ≠ '.' := by
  have radices := radix_of_marked marked
  cases suffixed with
  | bare => cases first
  | long letter =>
    cases first
    rcases letter with rfl | rfl <;> rcases radices with rfl | rfl | rfl | rfl <;>
      decide
  | byte other letter =>
    cases first
    rcases letter with rfl | rfl <;> rcases radices with rfl | rfl | rfl | rfl <;>
      first | exact absurd rfl other | decide
  | short other letter =>
    cases first
    rcases letter with rfl | rfl <;> rcases radices with rfl | rfl | rfl | rfl <;>
      first | exact absurd rfl other | decide

theorem run_readSuffix {suffix : List Char} (suffixed : Suffixed radix width suffix)
    (here : c.rest = suffix ++ tail)
    (ends : suffix = [] → tail.head?.any (fun x => (suffix? radix x).isSome) = false) :
    (readSuffix radix).run c = .ok (suffixOf width, c.advance suffix.length) := by
  have taken {x : Char} {selected : Suffix} (start : c.rest = x :: tail)
      (letter : suffix? radix x = some selected) :
      (readSuffix radix).run c = .ok (some selected, c.advance 1) := by
    have found : c.current?.bind (suffix? radix) = some selected := by
      rw [Cursor.current?_of_rest start]
      exact letter
    rw [readSuffix, run_get_bind, found]
    rfl
  cases suffixed with
  | bare =>
    have missing : c.current?.bind (suffix? radix) = none := by
      change c.rest.head?.bind (suffix? radix) = none
      rw [here, List.nil_append]
      cases first : tail.head? with
      | none => rfl
      | some x =>
        have unselected := ends rfl
        rw [first] at unselected
        exact Option.not_isSome_iff_eq_none.mp (Bool.eq_false_iff.mp unselected)
    rw [readSuffix, run_get_bind, missing]
    rfl
  | long letter =>
    rcases letter with rfl | rfl <;> exact taken here rfl
  | byte other letter =>
    refine taken here ?_
    rcases letter with rfl | rfl <;> exact if_neg other
  | short other letter =>
    refine taken here ?_
    rcases letter with rfl | rfl <;> exact if_neg other

/-! ### The mark of the radix -/

theorem radixAt_of_ne {x : Char} (nonzero : x ≠ '0') (cs : List Char) :
    radixAt (x :: cs) = (10, 0) := by
  unfold radixAt
  split <;> simp_all

/-- A zero is decimal unless what follows makes it the mark of another radix. -/
theorem radixAt_zero {back : List Char}
    (noHexadecimal : back.head?.any (fun x => x = 'x' ∨ x = 'X') = false)
    (noBinary : ∀ x y rest, back = x :: y :: rest → (x = 'b' ∨ x = 'B') → ¬(y = '0' ∨ y = '1'))
    (noDigit : back.head?.any Char.isDigit = false) : radixAt ('0' :: back) = (10, 0) := by
  unfold radixAt
  split <;> simp_all

theorem radixAt_hexadecimal {x : Char} (letter : x = 'x' ∨ x = 'X') (rest : List Char) :
    radixAt ('0' :: x :: rest) = (16, 2) := by
  rcases letter with rfl | rfl <;> rfl

theorem radixAt_binary {x y : Char} (letter : x = 'b' ∨ x = 'B') (digit : y = '0' ∨ y = '1')
    (rest : List Char) : radixAt ('0' :: x :: y :: rest) = (2, 2) := by
  rcases letter with rfl | rfl <;> rcases digit with rfl | rfl <;> rfl

theorem radixAt_octal {x : Char} (digit : x.isDigit = true) (rest : List Char) :
    radixAt ('0' :: x :: rest) = (8, 0) := by
  unfold radixAt
  split <;> simp_all

/-- Where a reader meets digits behind a sign and the mark of their radix, then no point, and then the
letter of a width, it has an integer if this may be written for the width. -/
theorem run_read {whole back : List Char} {m d e : Cursor} (sign : readSign.run c = .ok (negative, m))
    (mark : readRadix.run m = .ok (radix, d)) (here : d.rest = whole ++ back) (nonempty : whole ≠ [])
    (each : ∀ x ∈ whole, isDigitIn radix x = true) (ends : back.head?.any (isDigitIn radix) = false)
    (noPoint : atPoint radix (d.advance whole.length) = false)
    (suffix : (readSuffix radix).run (d.advance whole.length) = .ok (suffixOf width, e)) :
    read.run c = if fits radix width negative (digitsValue radix whole) then
      .ok (.ofInt width (if negative then -digitsValue radix whole else digitsValue radix whole), e)
      else .error ⟨.outOfRange (String.ofList (e.since c)), c.offset⟩ := by
  have taken : d.takeWhile (isDigitIn radix) = (whole, d.advance whole.length) := by
    have stop : back.takeWhile (isDigitIn radix) = [] := by
      cases back with
      | nil => rfl
      | cons x rest => exact List.takeWhile_cons_of_neg (Bool.eq_false_iff.mp ends)
    rw [Cursor.takeWhile, here, List.takeWhile_append_of_pos each, stop, List.append_nil]
  have fraction : (readFraction radix).run (d.advance whole.length) =
      .ok (none, d.advance whole.length) := by
    rw [readFraction, run_get_bind, noPoint]
    rfl
  have some : (whole.isEmpty && (Option.getD (none : Option (List Char)) []).isEmpty) ≠ true := by
    simp [nonempty]
  unfold read
  rw [run_get_bind, run_bind sign, run_bind mark, run_takeWhile_bind, taken]
  dsimp only
  rw [run_bind fraction, if_neg some, run_get_bind, run_bind suffix]
  cases width
  all_goals
    simp only [suffixOf]
    cases fits radix _ negative (digitsValue radix whole) <;> rfl

/-! ### Reading an integer -/

namespace IntegerText

variable {t : IntegerText}

theorem exists_digits (t : IntegerText) :
    ∃ x rest, t.digits = x :: rest ∧ isDigitIn t.radix x = true := by
  obtain ⟨x, rest, digits⟩ := List.exists_cons_of_ne_nil t.nonempty
  exact ⟨x, rest, digits, t.each x (digits ▸ List.mem_cons_self)⟩

/-- Behind the sign stands a decimal digit, be it the first of the mark. -/
theorem head_unsigned (t : IntegerText) (back : List Char) :
    (t.mark ++ (t.digits ++ back)).head?.any (isDigitIn 10) = true := by
  obtain ⟨negative, radix, width, sign, mark, digits, suffix, signed, marked, suffixed, nonempty, each,
    leading⟩ := t
  cases marked with
  | decimal =>
    obtain ⟨x, rest, rfl⟩ := List.exists_cons_of_ne_nil nonempty
    exact each x List.mem_cons_self
  | hexadecimal | binary | octal => rfl

/-- What stands behind the digits is no digit. -/
theorem head_behind (ends : ¬t.Continued tail) :
    (t.suffix ++ tail).head?.any (isDigitIn t.radix) = false := by
  cases first : t.suffix with
  | nil =>
    cases tail with
    | nil => rfl
    | cons x rest => exact eq_false_of_ne_true fun held => ends (.digit first held)
  | cons x rest => exact (head_of_suffixed t.marked t.suffixed (congrArg List.head? first)).1

theorem not_atPoint (here : c.rest = t.suffix ++ tail) (ends : ¬t.Continued tail) :
    atPoint t.radix c = false := by
  refine eq_false_of_ne_true fun held => ?_
  simp only [atPoint, Bool.and_eq_true, Bool.or_eq_true, decide_eq_true_eq] at held
  obtain ⟨⟨radix, current⟩, next⟩ := held
  rw [Cursor.current?, here] at current
  rw [Cursor.next?, here] at next
  cases first : t.suffix with
  | nil =>
    rw [first, List.nil_append] at current next
    cases tail with
    | nil => cases current
    | cons x rest =>
      cases current
      exact ends (.point first radix (by simpa [List.head?_eq_getElem?] using next))
  | cons x rest =>
    rw [first] at current
    exact (head_of_suffixed t.marked t.suffixed (congrArg List.head? first)).2
      (Option.some.inj current)

/-- Behind a decimal zero stands nothing that makes it the mark of another radix. -/
theorem radixAt_of_zero (decimal : t.radix = 10) (zero : t.digits = ['0'])
    (ends : ¬t.Continued tail) : radixAt ('0' :: (t.suffix ++ tail)) = (10, 0) := by
  obtain ⟨negative, radix, width, sign, mark, digits, suffix, signed, marked, suffixed, nonempty, each,
    leading⟩ := t
  cases suffixed with
  | bare =>
    cases tail with
    | nil => rfl
    | cons x rest =>
      refine radixAt_zero (eq_false_of_ne_true fun held => ?_) (fun y z more front letter => ?_)
        (eq_false_of_ne_true fun held => ?_)
      · exact absurd (.hexadecimal rfl decimal zero (of_decide_eq_true held)) ends
      · -- Such a letter selects a width already.
        cases front
        refine absurd (.letter rfl ?_) ends
        cases decimal
        rcases letter with rfl | rfl <;> rfl
      · refine absurd (.digit rfl ?_) ends
        cases decimal
        exact isDigitIn_of_isDigit held
  | long letter => rcases letter with rfl | rfl <;> rfl
  | short other letter => rcases letter with rfl | rfl <;> rfl
  | @byte x other letter =>
    refine radixAt_zero ?_ (fun y z more front _ digit => ?_) ?_
    · rcases letter with rfl | rfl <;> rfl
    · cases front
      exact ends (.binary rfl letter decimal zero digit)
    · rcases letter with rfl | rfl <;> rfl

/-- What the mark of the radix leaves are the digits, for an octal integer with the zero in front of them
that is its mark. -/
theorem exists_whole (here : m.rest = t.mark ++ (t.digits ++ (t.suffix ++ tail)))
    (ends : ¬t.Continued tail) :
    ∃ front whole, t.mark ++ t.digits = front ++ whole ∧
      readRadix.run m = .ok (t.radix, m.advance front.length) ∧ whole ≠ [] ∧
      (∀ x ∈ whole, isDigitIn t.radix x = true) ∧ digitsValue t.radix whole = t.magnitude := by
  have read {radix count : Nat} (found : radixAt m.rest = (radix, count)) :
      readRadix.run m = .ok (radix, m.advance count) := by
    rw [readRadix_eq, run_get_bind, found]
    rfl
  have value : digitsValue t.radix t.digits = t.magnitude := digitsValue_eq_ofDigits ..
  have ofZero := @radixAt_of_zero tail t
  obtain ⟨x, rest, spelled, digit⟩ := t.exists_digits
  obtain ⟨negative, radix, width, sign, mark, digits, suffix, signed, marked, suffixed, nonempty, each,
    leading⟩ := t
  subst spelled
  cases marked with
  | decimal =>
    refine ⟨[], x :: rest, rfl, read ?_, nonempty, each, value⟩
    rw [here]
    by_cases zero : x = '0'
    · subst zero
      cases leading rfl rfl
      exact ofZero rfl rfl ends
    · exact radixAt_of_ne zero _
  | hexadecimal letter =>
    refine ⟨_, x :: rest, rfl, read ?_, nonempty, each, value⟩
    rw [here]
    exact radixAt_hexadecimal letter _
  | binary letter =>
    refine ⟨_, x :: rest, rfl, read ?_, nonempty, each, value⟩
    rw [here]
    exact radixAt_binary letter (eq_of_isDigitIn_two digit) _
  | octal =>
    refine ⟨[], '0' :: x :: rest, rfl, read ?_, nofun, List.forall_mem_cons.mpr ⟨rfl, each⟩, value⟩
    rw [here]
    exact radixAt_octal (isDigit_of_isDigitIn (by decide : 8 ≤ 10) digit).1 _

theorem fits_iff (t : IntegerText) : fits t.radix t.width t.negative t.magnitude = true ↔ t.InRange := by
  have positive : 0 < 2 ^ (t.width.bits - 1) := Nat.two_pow_pos _
  have half : (2 : Int) ^ (t.width.bits - 1) = ((2 ^ (t.width.bits - 1) : Nat) : Int) :=
    (Int.natCast_pow ..).symm
  unfold fits InRange value
  by_cases decimal : t.radix = 10
  · rw [if_pos decimal, if_pos decimal, half, Nat.pow_eq]
    cases t.negative with
    | true =>
      rw [if_pos rfl, if_pos rfl, decide_eq_true_eq]
      omega
    | false =>
      rw [if_neg Bool.false_ne_true, if_neg Bool.false_ne_true, decide_eq_true_eq]
      omega
  · rw [if_neg decimal, if_neg decimal, decide_eq_true_eq]
    rfl

/-- An integer is read up to its last character if it is in range, as the pattern that is congruent to
it modulo the size of the range. If it is not, the error points to its start and repeats it. -/
theorem run_read (here : c.rest = t.chars ++ tail) (ends : ¬t.Continued tail) :
    read.run c = if t.InRange then .ok (.ofInt t.width t.value, c.advance t.chars.length)
      else .error ⟨.outOfRange (String.ofList t.chars), c.offset⟩ := by
  have afterSign : c.rest = t.sign ++ (t.mark ++ (t.digits ++ (t.suffix ++ tail))) := by
    rw [here, chars]
    simp only [List.append_assoc]
  have sign := run_readSign t.signed afterSign (t.head_unsigned _)
  have unsigned : (c.advance t.sign.length).rest = t.mark ++ (t.digits ++ (t.suffix ++ tail)) := by
    rw [Cursor.rest_advance, afterSign, List.drop_left]
  obtain ⟨front, whole, parts, mark, nonempty, each, value⟩ := exists_whole unsigned ends
  have inside : ((c.advance t.sign.length).advance front.length).rest =
      whole ++ (t.suffix ++ tail) := by
    rw [Cursor.rest_advance, unsigned, ← List.append_assoc, parts, List.append_assoc, List.drop_left]
  generalize atDigits : (c.advance t.sign.length).advance front.length = d at mark inside
  have behind : (d.advance whole.length).rest = t.suffix ++ tail := by
    rw [Cursor.rest_advance, inside, List.drop_left]
  have suffix := run_readSuffix t.suffixed behind fun bare => by
    cases tail with
    | nil => rfl
    | cons x rest => exact eq_false_of_ne_true fun held => ends (.letter bare held)
  have ran := Numeral.run_read sign mark inside nonempty each (head_behind ends)
    (not_atPoint behind ends) suffix
  have last : (d.advance whole.length).advance t.suffix.length = c.advance t.chars.length := by
    have lengths := congrArg List.length parts
    simp only [List.length_append] at lengths
    rw [← atDigits]
    simp only [Cursor.advance_advance, chars, List.length_append]
    congr 1
    omega
  have since : (c.advance t.chars.length).since c = t.chars := by
    rw [Cursor.since, Cursor.rest_advance, here, List.drop_left, List.length_append,
      Nat.add_sub_cancel, List.take_left]
  rw [ran, value, last, since]
  by_cases inRange : t.InRange
  · rw [if_pos inRange, if_pos (t.fits_iff.mpr inRange)]
    rfl
  · rw [if_neg inRange, if_neg fun fit => inRange (t.fits_iff.mp fit)]

end IntegerText

/-- An integer with nothing behind it that continues it is read exactly if it is in range, and then up to
its last character. The value is of the kind that its letter selects and holds the number modulo the size
of the range. Otherwise the error is at the start of the integer. -/
theorem read_integerText (t : IntegerText) {c : Cursor} {tail : List Char}
    (here : c.rest = t.chars ++ tail) (ends : ¬t.Continued tail) :
    ∃ n : BitVec t.width.bits, (n.toNat : Int) = t.value % 2 ^ t.width.bits ∧
      (c.advance t.chars.length).rest = tail ∧
      read.run c = if t.InRange then .ok (.integer t.width n, c.advance t.chars.length)
        else .error ⟨.outOfRange (String.ofList t.chars), c.offset⟩ := by
  refine ⟨BitVec.ofInt t.width.bits t.value, ?_, ?_, IntegerText.run_read here ends⟩
  · have nonneg : 0 ≤ t.value % (2 ^ t.width.bits : Nat) := Int.emod_nonneg _ (by
      exact_mod_cast (Nat.two_pow_pos _).ne')
    rw [BitVec.toNat_ofInt, Int.toNat_of_nonneg nonneg]
    norm_cast
  · rw [Cursor.rest_advance, here, List.drop_left]

/-- The least byte, and the number that would be its counterpart. -/
theorem read_integerText_least :
    read.run ⟨0, ['-', '1', '2', '8', 'B', ',']⟩ = .ok (.integer .byte (-128#8), ⟨5, [',']⟩) ∧
      read.run ⟨0, ['1', '2', '8', 'B', ',']⟩ = .error ⟨.outOfRange "128B", 0⟩ := by
  let digits : List Char := ['1', '2', '8']
  let least : IntegerText :=
    ⟨true, 10, .byte, ['-'], [], digits, ['B'], .minus, .decimal, .byte nofun (.inr rfl), nofun,
      List.all_eq_true.mp rfl, nofun⟩
  let other : IntegerText :=
    ⟨false, 10, .byte, [], [], digits, ['B'], .bare, .decimal, .byte nofun (.inr rfl), nofun,
      List.all_eq_true.mp rfl, nofun⟩
  have ends : ¬least.Continued [','] ∧ ¬other.Continued [','] := by
    constructor <;> (intro continued; cases continued with
      | digit bare | letter bare | hexadecimal bare => cases bare
      | binary marks letter decimal zero => cases zero)
  obtain ⟨n, pattern, -, ran⟩ := read_integerText least (c := ⟨0, least.chars ++ [',']⟩) rfl ends.1
  obtain ⟨m, -, -, failed⟩ := read_integerText other (c := ⟨0, other.chars ++ [',']⟩) rfl ends.2
  have value : least.value = -128 := by decide
  have inRange : least.InRange := by decide
  have outOfRange : ¬other.InRange := by decide
  rw [if_pos inRange] at ran
  rw [if_neg outOfRange] at failed
  rw [value] at pattern
  have bits : n.toNat = 128 := by
    have congruent : (n.toNat : Int) = 128 := pattern.trans (by decide)
    omega
  obtain rfl : n = (-128#8 : BitVec 8) := BitVec.eq_of_toNat_eq bits
  exact ⟨ran, failed⟩

end Numeral
end Immediate
