import Immediate.Proofs.Source.Grammar
import Immediate.Proofs.Source.Numerals
import Immediate.Value.Text
/-! Literals read back. An integer written with its sign, its decimal digits and the letter of its
width, and a text between quotes with what stands for it escaped, are read as what they were written
for, whatever follows them in canonical text. -/
namespace Immediate

open Immediate.Parser

/-- What follows a value in canonical text: nothing, or what parts it from the next value or closes
what it stands in. -/
inductive Ended : List Char → Prop where
  | nothing : Ended []
  | mark {x : Char} (rest : List Char) (closing : x ∈ [',', '\x7d', ')']) : Ended (x :: rest)
  | colon (rest : List Char) : Ended (' ' :: ':' :: rest)

/-- A class without the first characters of what follows a value does not hold there. -/
theorem Ended.head_of_class {p : Char → Bool} {tail : List Char} (ended : Ended tail)
    (others : [',', '\x7d', ')', ' '].all (!p ·) = true) : tail.head?.any p = false := by
  have each := List.all_eq_true.mp others
  cases ended with
  | nothing => rfl
  | mark rest closing =>
    have inside := List.mem_append_left [' '] closing
    simpa using each _ inside
  | colon rest => simpa using each ' ' (by simp)

theorem Ended.not_of_class {p : Char → Bool} {x : Char} {rest : List Char} (ended : Ended (x :: rest))
    (others : [',', '\x7d', ')', ' '].all (!p ·) = true) : p x ≠ true := by
  rw [show p x = false from ended.head_of_class others]
  exact Bool.false_ne_true

theorem Cursor.current?_ne {c : Cursor} {x : Char} (other : c.rest.head?.any (· = x) = false) :
    c.current? ≠ some x := by
  intro current
  rw [show c.rest.head? = some x from current] at other
  simp at other

/-! ### Digits -/

/-- The digits of a number spell it. -/
theorem digitsValue_toDigits (k : Nat) : digitsValue 10 (Nat.toDigits 10 k) = k := by
  have digits (cs : List Char) (each : ∀ x ∈ cs, x.isDigit = true) (total : Nat) :
      (cs.filterMap (digitValue? 10)).foldl (fun total digit => total * 10 + digit) total =
        Nat.ofDigitChars 10 cs total := by
    induction cs generalizing total with
    | nil => rfl
    | cons x rest ih =>
      rw [List.filterMap_cons, digitValue?_of_isDigit (each x List.mem_cons_self)]
      dsimp only
      rw [List.foldl_cons, ih (fun y member => each y (List.mem_cons_of_mem x member)),
        Nat.ofDigitChars_cons, Nat.mul_comm]
  have each : ∀ x ∈ Nat.toDigits 10 k, x.isDigit = true := fun x member =>
    Nat.isDigit_of_mem_toDigits (by decide) (by decide) member
  rw [digitsValue, digits _ each, Nat.ofDigitChars_ten_toDigits]

/-- Only the digits of zero start with one. -/
theorem head_toDigits {k : Nat} (positive : 0 < k) : (Nat.toDigits 10 k).head? ≠ some '0' := by
  induction k using Nat.strongRecOn with
  | _ k ih =>
    by_cases small : k < 10
    · rw [Nat.toDigits_of_lt_base small]
      simp
      omega
    · rw [Nat.toDigits_of_base_le (by decide) (by omega)]
      obtain ⟨x, rest, front⟩ := List.exists_cons_of_ne_nil (Nat.toDigits_ne_nil (n := k / 10))
      have first := ih (k / 10) (by omega) (by omega)
      rw [front] at first ⊢
      exact first

theorem exists_cons_toDigits (k : Nat) :
    ∃ x rest, Nat.toDigits 10 k = x :: rest ∧ x.isDigit = true := by
  obtain ⟨x, rest, digits⟩ := List.exists_cons_of_ne_nil (Nat.toDigits_ne_nil (n := k) (b := 10))
  have member : x ∈ Nat.toDigits 10 k := digits ▸ List.mem_cons_self
  exact ⟨x, rest, digits, Nat.isDigit_of_mem_toDigits (by decide) (by decide) member⟩

/-! ### Integers -/

namespace Numeral

variable {c : Cursor} {tail : List Char} {width : Width} {k : Nat}

theorem suffixed_widthSuffix (width : Width) :
    Suffixed 10 width (Value.widthSuffix width).toList := by
  cases width with
  | byte => exact .byte nofun (.inr rfl)
  | short => exact .short nofun (.inr rfl)
  | int => exact .bare
  | long => exact .long (.inr rfl)

/-- An integer as it stands in canonical text: decimal, with a sign only if it is a minus. -/
def canonical (width : Width) (negative : Bool) (k : Nat) : IntegerText where
  negative := negative
  radix := 10
  width := width
  sign := if negative then ['-'] else []
  mark := []
  digits := Nat.toDigits 10 k
  suffix := (Value.widthSuffix width).toList
  signed := by cases negative <;> constructor
  marked := .decimal
  suffixed := suffixed_widthSuffix width
  nonempty := Nat.toDigits_ne_nil
  each _ member :=
    isDigitIn_of_isDigit (Nat.isDigit_of_mem_toDigits (by decide) (by decide) member)
  leading _ zero := by
    rcases Nat.eq_zero_or_pos k with rfl | positive
    · rfl
    · exact absurd zero (head_toDigits positive)

theorem magnitude_canonical (width : Width) (negative : Bool) (k : Nat) :
    (canonical width negative k).magnitude = k :=
  (digitsValue_eq_ofDigits ..).symm.trans (digitsValue_toDigits k)

/-- Nothing that may follow a value continues an integer. -/
theorem not_continued (ended : Ended tail) (width : Width) (negative : Bool) (k : Nat) :
    ¬(canonical width negative k).Continued tail := by
  intro continued
  cases continued with
  | digit bare held => exact ended.not_of_class (p := isDigitIn 10) rfl held
  | letter bare held => exact ended.not_of_class (p := fun x => (suffix? 10 x).isSome) rfl held
  | point => exact ended.not_of_class (p := (· = '.')) rfl rfl
  | hexadecimal bare decimal zero held =>
    rcases held with rfl | rfl
    · exact ended.not_of_class (p := (· = 'x')) rfl rfl
    · exact ended.not_of_class (p := (· = 'X')) rfl rfl
  | binary marks letter decimal zero held =>
    rcases held with rfl | rfl
    · exact ended.not_of_class (p := (· = '0')) rfl rfl
    · exact ended.not_of_class (p := (· = '1')) rfl rfl

/-- The text of an integer is its digits and the letter of its width, behind a minus if it is
negative. -/
theorem toList_text (n : BitVec width.bits) :
    (∃ k, n.toInt = Int.ofNat k ∧ (Value.text (.integer width n)).toList =
      Nat.toDigits 10 k ++ (Value.widthSuffix width).toList) ∨
    ∃ k, n.toInt = Int.negSucc k ∧ (Value.text (.integer width n)).toList =
      '-' :: (Nat.toDigits 10 (k + 1) ++ (Value.widthSuffix width).toList) := by
  have text : (Value.text (.integer width n)).toList =
      (toString n.toInt).toList ++ (Value.widthSuffix width).toList := by
    rw [Value.text, String.toList_append]
  rw [text]
  cases value : n.toInt with
  | ofNat k =>
    refine .inl ⟨k, rfl, ?_⟩
    change (toString k).toList ++ _ = _
    rw [Nat.toString_eq_repr, Nat.toList_repr]
  | negSucc k =>
    refine .inr ⟨k, rfl, ?_⟩
    change ("-" ++ toString (k + 1)).toList ++ _ = _
    rw [String.toList_append, Nat.toString_eq_repr, Nat.toList_repr]
    rfl

/-- An integer that a width has is read back from canonical text. -/
theorem exists_read_canonical (ended : Ended tail) (negative : Bool) {n : BitVec width.bits}
    (value : n.toInt = (canonical width negative k).value)
    (here : c.rest = (canonical width negative k).chars ++ tail) :
    ∃ c', read.run c = .ok (.ofInt width n.toInt, c') ∧ c'.rest = tail := by
  have inRange : (canonical width negative k).InRange := by
    refine (if_pos rfl).mpr ?_
    rw [← value]
    exact ⟨BitVec.le_toInt n, Int.le_sub_one_of_lt BitVec.toInt_lt⟩
  refine ⟨c.advance (canonical width negative k).chars.length, ?_, ?_⟩
  · rw [IntegerText.run_read here (not_continued ended width negative k), if_pos inRange, ← value]
    rfl
  · rw [Cursor.rest_advance, here, List.drop_left]

/-- An integer is read back from its text. -/
theorem literal_text (ended : Ended tail) {n : BitVec width.bits}
    (here : c.rest = (Value.text (.integer width n)).toList ++ tail) :
    ∃ c', Expression.Literal c (.integer width n) c' ∧ c'.rest = tail := by
  have same : Value.ofInt width n.toInt = .integer width n := by
    rw [Value.ofInt, BitVec.ofInt_toInt]
  rw [← same]
  rcases toList_text n with ⟨k, value, text⟩ | ⟨k, value, text⟩
  · rw [text] at here
    have written : n.toInt = (canonical width false k).value := by
      rw [value, IntegerText.value, magnitude_canonical]
      rfl
    obtain ⟨c', read, ends⟩ := exists_read_canonical ended false written here
    obtain ⟨x, rest, digits, digit⟩ := exists_cons_toDigits k
    have current : c.current? = some x := by
      rw [Cursor.current?, here, digits]
      rfl
    exact ⟨c', .numeral current (.inl digit) read, ends⟩
  · rw [text] at here
    have written : n.toInt = (canonical width true (k + 1)).value := by
      rw [value, IntegerText.value, magnitude_canonical]
      rfl
    obtain ⟨c', read, ends⟩ := exists_read_canonical ended true written here
    have current : c.current? = some '-' := Cursor.current?_of_rest here
    have next : c.next?.any Expression.startsDigits = true := by
      obtain ⟨x, rest, digits, digit⟩ := exists_cons_toDigits (k + 1)
      rw [Cursor.next?, here, digits]
      simp [Expression.startsDigits, digit]
    exact ⟨c', .signed current (.inl rfl) next read, ends⟩

end Numeral

/-! ### Texts -/

namespace Text

theorem toNat_toUInt16 {n : Nat} (small : n < 0x10000) : n.toUInt16.toNat = n :=
  UInt16.toNat_ofNat_of_lt' small

theorem isHighSurrogate_iff (u : UInt16) :
    isHighSurrogate u = true ↔ 0xD800 ≤ u.toNat ∧ u.toNat < 0xDC00 := by
  simp [isHighSurrogate, UInt16.le_iff_toNat_le, UInt16.lt_iff_toNat_lt]

theorem isLowSurrogate_iff (u : UInt16) :
    isLowSurrogate u = true ↔ 0xDC00 ≤ u.toNat ∧ u.toNat < 0xE000 := by
  simp [isLowSurrogate, UInt16.le_iff_toNat_le, UInt16.lt_iff_toNat_lt]

theorem spell_single {u : UInt16} (noHigh : isHighSurrogate u = false)
    (noLow : isLowSurrogate u = false) (us : List UInt16) :
    spell (u :: us) = some (Char.ofNat u.toNat) :: spell us := by
  cases us <;> simp [spell, noHigh, noLow]

theorem spell_pair {u v : UInt16} (high : isHighSurrogate u = true) (low : isLowSurrogate v = true)
    (us : List UInt16) : spell (u :: v :: us) = some (joinSurrogates u v) :: spell us := by
  simp [spell, high, low]

/-- The units of a character spell it, whatever units follow. -/
theorem spell_charUnits (x : Char) (us : List UInt16) :
    spell (charUnits x ++ us) = some x :: spell us := by
  have valid : x.toNat < 0xD800 ∨ (0xDFFF < x.toNat ∧ x.toNat < 0x110000) := x.valid
  by_cases one : x.toNat < 0x10000
  · have unit := toNat_toUInt16 one
    have noHigh : isHighSurrogate x.toNat.toUInt16 = false := by
      rw [← Bool.not_eq_true, isHighSurrogate_iff, unit]
      omega
    have noLow : isLowSurrogate x.toNat.toUInt16 = false := by
      rw [← Bool.not_eq_true, isLowSurrogate_iff, unit]
      omega
    rw [charUnits, if_pos one]
    change spell (x.toNat.toUInt16 :: us) = _
    rw [spell_single noHigh noLow, unit, Char.ofNat_toNat]
  · generalize beyond : x.toNat - 0x10000 = n
    have high := toNat_toUInt16 (n := 0xD800 + n / 0x400) (by omega)
    have low := toNat_toUInt16 (n := 0xDC00 + n % 0x400) (by omega)
    have isHigh : isHighSurrogate (0xD800 + n / 0x400).toUInt16 = true := by
      rw [isHighSurrogate_iff, high]
      omega
    have isLow : isLowSurrogate (0xDC00 + n % 0x400).toUInt16 = true := by
      rw [isLowSurrogate_iff, low]
      omega
    have whole : 0x10000 + (0xD800 + n / 0x400 - 0xD800) * 0x400 +
        (0xDC00 + n % 0x400 - 0xDC00) = x.toNat := by omega
    rw [charUnits, if_neg one, beyond]
    change spell ((0xD800 + n / 0x400).toUInt16 :: (0xDC00 + n % 0x400).toUInt16 :: us) = _
    rw [spell_pair isHigh isLow, joinSurrogates, high, low, whole, Char.ofNat_toNat]

/-- The units of a text spell it, character by character. -/
theorem spell_flatMap (cs : List Char) : spell (cs.flatMap charUnits) = cs.map some := by
  induction cs with
  | nil => rfl
  | cons x rest ih => rw [List.flatMap_cons, spell_charUnits, ih, List.map_cons]

theorem ofUnits?_units (cs : List Char) :
    ofUnits? (cs.flatMap charUnits) = some (String.ofList cs) := by
  have whole (xs : List Char) : (xs.map some).mapM id = some xs := by
    induction xs with
    | nil => rfl
    | cons x rest ih =>
      rw [List.map_cons, List.mapM_cons, ih]
      rfl
  rw [ofUnits?, spell_flatMap, whole]
  rfl

/-- A character stands for itself between quotes, or a letter behind a backslash stands for it. -/
theorem escapeChar_cases (x : Char) :
    (escapeChar x = [x] ∧ x ≠ '"' ∧ x ≠ '\\') ∨
      ∃ letter u, escapeChar x = ['\\', letter] ∧ letter ≠ 'u' ∧
        Quoted.escaped? letter = some u ∧ charUnits x = [u] := by
  unfold escapeChar
  iterate 7
    split
    · subst_vars
      exact .inr ⟨_, _, rfl, by decide, rfl, rfl⟩
  exact .inl ⟨rfl, ‹_›, ‹_›⟩

/-- No character vanishes between quotes. -/
theorem length_le_length_escaped (cs : List Char) :
    cs.length ≤ (cs.flatMap escapeChar).length := by
  induction cs with
  | nil => exact Nat.le_refl 0
  | cons x rest ih =>
    have some : 0 < (escapeChar x).length := by
      rcases escapeChar_cases x with ⟨plain, -⟩ | ⟨_, _, pair, -⟩
      · simp [plain]
      · simp [pair]
    rw [List.flatMap_cons, List.length_append, List.length_cons]
    omega

end Text

namespace Quoted

/-- Escaped characters are read back as their units, up to the quote behind them. -/
theorem run_readUnits {tail : List Char} (start : Nat) {cs : List Char} {fuel : Nat} {c : Cursor}
    (enough : cs.length < fuel) (here : c.rest = cs.flatMap Text.escapeChar ++ '"' :: tail) :
    ∃ c', (readUnits start fuel).run c = .ok (cs.flatMap Text.charUnits, c') ∧ c'.rest = tail := by
  induction cs generalizing fuel c with
  | nil =>
    obtain ⟨fuel, rfl⟩ := Nat.exists_eq_add_one_of_ne_zero (Nat.ne_of_gt enough)
    have current : c.current? = some '"' := Cursor.current?_of_rest here
    refine ⟨c.advance 1, ?_, Cursor.rest_behind here⟩
    rw [readUnits, run_get_bind, current]
    rfl
  | cons x rest ih =>
    obtain ⟨fuel, rfl⟩ := Nat.exists_eq_add_one_of_ne_zero (Nat.ne_of_gt (Nat.zero_lt_of_lt enough))
    have less : rest.length < fuel := Nat.lt_of_succ_lt_succ enough
    rw [List.flatMap_cons, List.append_assoc] at here
    rcases Text.escapeChar_cases x with ⟨plain, noQuote, noSlash⟩ | ⟨letter, u, pair, noU, unit, single⟩
    · rw [plain] at here
      have current : c.current? = some x := Cursor.current?_of_rest here
      have behind : (c.advance 1).rest = rest.flatMap Text.escapeChar ++ '"' :: tail :=
        Cursor.rest_behind here
      obtain ⟨c', run, ends⟩ := ih less behind
      refine ⟨c', ?_, ends⟩
      rw [readUnits, run_get_bind, current]
      dsimp only
      rw [if_neg noQuote, if_neg noSlash, run_set_bind, run_bind run]
      rfl
    · rw [pair] at here
      have current : c.current? = some '\\' := Cursor.current?_of_rest here
      have middle : (c.advance 1).rest = letter :: (rest.flatMap Text.escapeChar ++ '"' :: tail) :=
        Cursor.rest_behind here
      have second := Cursor.current?_of_rest middle
      have behind := Cursor.rest_behind middle
      have escape : readEscape.run c = .ok (u, (c.advance 1).advance 1) := by
        rw [readEscape, run_get_bind, run_modify_bind, run_get_bind, second]
        dsimp only
        rw [run_set_bind, if_neg noU, unit]
        rfl
      obtain ⟨c', run, ends⟩ := ih less behind
      refine ⟨c', ?_, ends⟩
      rw [readUnits, run_get_bind, current]
      dsimp only
      rw [if_neg (by decide), if_pos rfl, run_bind escape, run_bind run, List.flatMap_cons, single]
      rfl

/-- A text is read back from between its quotes. -/
theorem run_readText_quote {s : String} {tail : List Char} {c : Cursor}
    (here : c.rest = (Text.quote s).toList ++ tail) :
    ∃ c', readText.run c = .ok (.string s, c') ∧ c'.rest = tail := by
  rw [Text.quote, String.toList_ofList, List.append_assoc] at here
  have behind : (c.advance 1).rest = s.toList.flatMap Text.escapeChar ++ '"' :: tail :=
    Cursor.rest_behind here
  have enough : s.toList.length < c.rest.length := by
    have kept := Text.length_le_length_escaped s.toList
    rw [here, List.cons_append, List.length_cons, List.length_append]
    omega
  obtain ⟨c', run, ends⟩ := run_readUnits c.offset enough behind
  refine ⟨c', ?_, ends⟩
  rw [readText, run_get_bind, run_set_bind, run_bind run, Text.ofUnits?_units, String.ofList_toList]
  rfl

end Quoted

end Immediate
