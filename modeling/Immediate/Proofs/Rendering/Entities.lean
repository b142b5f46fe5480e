import Immediate.Proofs.Source.Numerals
import Immediate.Proofs.Trimming
import Immediate.Value.Entity
import Mathlib.Data.List.SplitLengths
import Mathlib.Data.Nat.Digits.Lemmas
/-! References to entities, read and written. A reference is read from five groups of hexadecimal digits
with hyphens between them, as the number all the digits spell together. Written out, a number has all its
digits, in lower case; so every reference is read back from its text, and the text of what was read is what
it was read from, but for the case of the letters and a plus sign in front, which is taken for a zero. -/
namespace Immediate

/-! ### Pieces of a text -/

namespace Text

theorem splitAt_eq_splitOn (sep : Char) (cs : List Char) : splitAt sep cs = cs.splitOn sep := by
  induction cs with
  | nil => rw [splitAt, List.splitOn_nil]
  | cons x rest ih =>
    rw [splitAt, List.splitOn_cons_eq_if_modifyHead, ih]
    obtain ⟨piece, pieces, split⟩ := List.exists_cons_of_ne_nil (List.splitOn_ne_nil sep rest)
    simp only [split, List.modifyHead_cons, beq_iff_eq]

theorem map_intercalate (f : Char → Char) (sep : Char) (parts : List (List Char)) :
    ([sep].intercalate parts).map f = [f sep].intercalate (parts.map (List.map f)) := by
  induction parts with
  | nil => rfl
  | cons part parts ih =>
    cases parts with
    | nil => simp only [List.map_cons, List.map_nil, List.intercalate_singleton]
    | cons second more =>
      rw [List.intercalate_cons_cons, List.map_append, List.map_append, ih]
      exact List.intercalate_cons_cons.symm

theorem mem_of_mem_intercalate {sep x : Char} {parts : List (List Char)}
    (member : x ∈ [sep].intercalate parts) : x ∈ parts.flatten ∨ x = sep := by
  induction parts with
  | nil => cases member
  | cons part parts ih =>
    cases parts with
    | nil => exact .inl (by simpa using member)
    | cons second more =>
      rw [List.intercalate_cons_cons, List.append_assoc, List.mem_append, List.mem_append] at member
      rw [List.flatten_cons, List.mem_append]
      rcases member with before | between | behind
      · exact .inl (.inl before)
      · exact .inr (List.mem_singleton.mp between)
      · exact (ih behind).imp_left .inr

end Text

/-! ### Hexadecimal digits -/

theorem digitChar_of_digitValue? {x : Char} {v : Nat} (value : digitValue? 16 x = some v) :
    v < 16 ∧ v.digitChar = x.toLower := by
  have small : x.toNat < 128 := by
    have below {last : Char} (low : x ≤ last) (ascii : last.toNat < 128) : x.toNat < 128 :=
      Nat.lt_of_le_of_lt (UInt32.le_iff_toNat_le.mp low) ascii
    obtain ⟨among, -⟩ := Option.filter_eq_some_iff.mp value
    split at among
    · rename_i between
      exact below between.2 (by decide)
    split at among
    · rename_i between
      exact below between.2 (by decide)
    split at among
    · rename_i between
      exact below between.2 (by decide)
    · cases among
  have table : ∀ n < 128, ∀ v ∈ digitValue? 16 (Char.ofNat n),
      v < 16 ∧ v.digitChar = (Char.ofNat n).toLower := by decide
  have found := table x.toNat small v
  rw [Char.ofNat_toNat] at found
  exact found value

theorem digitValue?_digitChar {v : Nat} (small : v < 16) : digitValue? 16 v.digitChar = some v := by
  have table : ∀ v < 16, digitValue? 16 (Nat.digitChar v) = some v := by decide
  exact table v small

theorem digitsValue_concat {radix v : Nat} {x : Char} (value : digitValue? radix x = some v)
    (front : List Char) : digitsValue radix (front ++ [x]) = digitsValue radix front * radix + v := by
  simp only [digitsValue, List.filterMap_append, List.filterMap_cons, value, List.filterMap_nil,
    List.foldl_append, List.foldl_cons, List.foldl_nil]

namespace EntityId

/-- The last hexadecimal digits of a number, as many as asked for. -/
def lastDigits : Nat → Nat → List Char
  | 0, _ => []
  | width + 1, n => lastDigits width (n / 16) ++ [(n % 16).digitChar]

theorem length_lastDigits (width n : Nat) : (lastDigits width n).length = width := by
  induction width generalizing n with
  | zero => rfl
  | succ width ih => rw [lastDigits, List.length_append, ih, List.length_singleton]

/-- A number that has no more digits than asked for is written with leading zeros. -/
theorem hexadecimal_eq_lastDigits {width n : Nat} (fits : n < 16 ^ (width + 1)) :
    hexadecimal (width + 1) n = lastDigits (width + 1) n := by
  induction width generalizing n with
  | zero =>
    have small : n < 16 := by simpa using fits
    simp [hexadecimal, lastDigits, Nat.toDigits_of_lt_base small, Nat.mod_eq_of_lt small]
  | succ width ih =>
    have fewer : n / 16 < 16 ^ (width + 1) := by
      rw [Nat.pow_succ] at fits
      omega
    rw [lastDigits, ← ih fewer]
    by_cases small : n < 16
    · rw [Nat.div_eq_of_lt small, Nat.mod_eq_of_lt small]
      simp [hexadecimal, Nat.toDigits_of_lt_base small, ← List.replicate_succ']
    · simp only [hexadecimal, Nat.toDigits_of_base_le (by decide : 1 < 16) (Nat.le_of_not_lt small),
        List.length_append, List.length_singleton, Nat.add_sub_add_right, List.append_assoc]

theorem digit_of_mem_lastDigits {width n : Nat} : ∀ x ∈ lastDigits width n, isDigitIn 16 x = true := by
  induction width generalizing n with
  | zero => exact nofun
  | succ width ih =>
    intro x member
    rcases List.mem_append.mp member with before | last
    · exact ih x before
    · rw [List.mem_singleton.mp last, isDigitIn, digitValue?_digitChar (Nat.mod_lt n (by decide))]
      rfl

theorem digitsValue_lastDigits {width n : Nat} (fits : n < 16 ^ width) :
    digitsValue 16 (lastDigits width n) = n := by
  induction width generalizing n with
  | zero =>
    rw [Nat.pow_zero] at fits
    rw [Nat.lt_one_iff.mp fits]
    rfl
  | succ width ih =>
    have fewer : n / 16 < 16 ^ width := by
      rw [Nat.pow_succ] at fits
      omega
    rw [lastDigits, digitsValue_concat (digitValue?_digitChar (Nat.mod_lt n (by decide))), ih fewer]
    omega

/-- Digits are the last ones of the number they spell, but for the case of letters. -/
theorem lastDigits_digitsValue {cs : List Char} (each : ∀ x ∈ cs, isDigitIn 16 x = true) :
    lastDigits cs.length (digitsValue 16 cs) = cs.map Char.toLower := by
  induction cs using List.reverseRecOn with
  | nil => rfl
  | append_singleton front x ih =>
    obtain ⟨v, value⟩ := Option.isSome_iff_exists.mp (each x (by simp))
    obtain ⟨small, char⟩ := digitChar_of_digitValue? value
    have quotient : (digitsValue 16 front * 16 + v) / 16 = digitsValue 16 front := by omega
    have remainder : (digitsValue 16 front * 16 + v) % 16 = v := by omega
    rw [digitsValue_concat value, List.length_append, List.length_singleton, lastDigits, quotient,
      remainder, char, ih fun y member => each y (List.mem_append_left [x] member), List.map_append]
    rfl

theorem digitsValue_lt (cs : List Char) : digitsValue 16 cs < 16 ^ cs.length := by
  have small : ∀ v ∈ (cs.filterMap (digitValue? 16)).reverse, v < 16 := by
    intro v member
    obtain ⟨x, -, value⟩ := List.mem_filterMap.mp (List.mem_reverse.mp member)
    exact (digitChar_of_digitValue? value).1
  have fewer : (cs.filterMap (digitValue? 16)).reverse.length ≤ cs.length := by
    rw [List.length_reverse]
    exact List.length_filterMap_le _ cs
  rw [digitsValue_eq_ofDigits]
  calc Nat.ofDigits 16 (cs.filterMap (digitValue? 16)).reverse
    _ < 16 ^ (cs.filterMap (digitValue? 16)).reverse.length :=
      Nat.ofDigits_lt_base_pow_length (by decide) small
    _ ≤ 16 ^ cs.length := Nat.pow_le_pow_right (by decide) fewer

/-! ### Groups of digits -/

theorem splitLengths_flatten (parts : List (List Char)) :
    (parts.map List.length).splitLengths parts.flatten = parts := by
  induction parts with
  | nil => rfl
  | cons part parts ih =>
    rw [List.map_cons, List.splitLengths_cons, List.flatten_cons, List.take_left, List.drop_left, ih]

theorem bits_lt (e : EntityId) : e.bits.toNat < 16 ^ 32 := by
  have same : 16 ^ 32 = 2 ^ 128 := by norm_num
  exact same ▸ e.bits.isLt

/-- A reference as it is written: hexadecimal digits in five groups. -/
structure ReferenceText where
  parts : List (List Char)
  lengths : parts.map List.length = groups
  each : ∀ x ∈ parts.flatten, isDigitIn 16 x = true

namespace ReferenceText

/-- The text: the groups with hyphens between them. -/
def chars (t : ReferenceText) : List Char := ['-'].intercalate t.parts

/-- The number all the digits spell, the last one counting ones. -/
def number (t : ReferenceText) : Nat :=
  Nat.ofDigits 16 (t.parts.flatten.filterMap (digitValue? 16)).reverse

variable (t : ReferenceText)

theorem length_digits : t.parts.flatten.length = 32 := by
  rw [List.length_flatten, t.lengths]
  rfl

/-- A reference is made of digits and hyphens. -/
theorem digit_of_mem_chars {x : Char} (member : x ∈ t.chars) : isDigitIn 16 x = true ∨ x = '-' := by
  exact (Text.mem_of_mem_intercalate member).imp_left (t.each x)

theorem sum_groups (n : Nat) : groups.sum = (lastDigits 32 n).length := by
  rw [length_lastDigits]
  rfl

theorem digits_in_groups (n : Nat) :
    (groups.splitLengths (lastDigits 32 n)).flatten = lastDigits 32 n :=
  List.flatten_splitLengths _ _ (Nat.le_of_eq (sum_groups n).symm)

/-- The text of an entity as a reference. -/
def ofEntity (e : EntityId) : ReferenceText where
  parts := groups.splitLengths (lastDigits 32 e.bits.toNat)
  lengths := List.map_splitLengths_length _ _ (Nat.le_of_eq (sum_groups _))
  each := by
    rw [digits_in_groups]
    exact digit_of_mem_lastDigits

theorem parts_ofEntity (e : EntityId) :
    (ofEntity e).parts = groups.splitLengths (lastDigits 32 e.bits.toNat) := by
  simp only [ofEntity]

theorem number_ofEntity (e : EntityId) : (ofEntity e).number = e.bits.toNat := by
  rw [number, parts_ofEntity, digits_in_groups, ← digitsValue_eq_ofDigits]
  exact digitsValue_lastDigits e.bits_lt

end ReferenceText

theorem text_toList (e : EntityId) : e.text.toList = (ReferenceText.ofEntity e).chars := by
  rw [text, hexadecimal_eq_lastDigits e.bits_lt]
  simp [ReferenceText.chars, ReferenceText.ofEntity, groups, List.splitLengths_cons]

/-- The text of an entity is that of any reference to it, in lower case. -/
theorem text_of_number (t : ReferenceText) {e : EntityId} (number : e.bits.toNat = t.number) :
    e.text.toList = t.chars.map Char.toLower := by
  have digits : lastDigits 32 e.bits.toNat = t.parts.flatten.map Char.toLower := by
    rw [number, ReferenceText.number, ← digitsValue_eq_ofDigits, ← t.length_digits]
    exact lastDigits_digitsValue t.each
  have parts : (ReferenceText.ofEntity e).parts = t.parts.map (List.map Char.toLower) := by
    have lengths : groups = (t.parts.map (List.map Char.toLower)).map List.length := by
      rw [List.map_map, ← t.lengths]
      simp [Function.comp_def]
    rw [ReferenceText.parts_ofEntity, digits, List.map_flatten, lengths, splitLengths_flatten]
  rw [text_toList, ReferenceText.chars, ReferenceText.chars, parts, Text.map_intercalate]
  rfl

/-! ### Reading -/

/-- Text in which a zero stands in place of a plus sign in front. -/
def plusAsZero : List Char → List Char
  | '+' :: rest => '0' :: rest
  | cs => cs

theorem plusAsZero_of_head {cs : List Char} (noPlus : cs.head? ≠ some '+') : plusAsZero cs = cs := by
  unfold plusAsZero
  split
  · exact absurd rfl noPlus
  · rfl

theorem readHexadecimal?_of_ne {x : Char} (other : x ≠ '+') (rest : List Char) :
    readHexadecimal? (x :: rest) = readDigits? 16 (x :: rest) := by
  unfold readHexadecimal?
  split
  · rename_i front
    exact absurd (List.cons.inj front).1 other
  · rfl

/-- A plus sign is read as a zero would be, where digits follow. -/
theorem readHexadecimal?_plus {digits : List Char} (some : digits ≠ []) :
    readHexadecimal? ('+' :: digits) = readDigits? 16 ('0' :: digits) := by
  have zero : digitValue? 16 '0' = .some 0 := rfl
  have value : digitsValue 16 ('0' :: digits) = digitsValue 16 digits := by
    rw [digitsValue, List.filterMap_cons, zero]
    rfl
  have each : ('0' :: digits).all (isDigitIn 16) = digits.all (isDigitIn 16) := rfl
  simp only [readHexadecimal?, readDigits?, some, each, value, ne_eq, reduceCtorEq, not_false_eq_true,
    true_and]

theorem splitAt_cons_of_ne {x : Char} (other : x ≠ '-') (rest : List Char) : ∃ piece pieces,
    Text.splitAt '-' rest = piece :: pieces ∧
      Text.splitAt '-' (x :: rest) = (x :: piece) :: pieces := by
  have some : Text.splitAt '-' rest ≠ [] := by
    rw [Text.splitAt_eq_splitOn]
    exact List.splitOn_ne_nil '-' rest
  obtain ⟨piece, pieces, split⟩ := List.exists_cons_of_ne_nil some
  exact ⟨piece, pieces, split, by rw [Text.splitAt, if_neg other, split]⟩

/-- Reading takes a plus sign in front for a zero, and digits only otherwise. -/
theorem ofText?_eq (s : String) : ofText? s =
    let pieces := Text.splitAt '-' (plusAsZero (Text.trimChars s.toList))
    if pieces.map List.length = groups then
      (readDigits? 16 pieces.flatten).map fun n => ⟨BitVec.ofNat 128 n⟩
    else none := by
  unfold ofText?
  cases Text.trimChars s.toList with
  | nil => rfl
  | cons x rest =>
    by_cases plus : x = '+'
    · obtain ⟨piece, pieces, split, withPlus⟩ := splitAt_cons_of_ne (x := '+') (by decide) rest
      obtain ⟨piece', pieces', split', withZero⟩ := splitAt_cons_of_ne (x := '0') (by decide) rest
      cases split.symm.trans split'
      rw [plus, plusAsZero, withPlus, withZero]
      refine ite_congr rfl (fun lengths => ?_) fun _ => rfl
      have first : piece ≠ [] := by
        rintro rfl
        cases lengths
      rw [List.flatten_cons, List.cons_append, readHexadecimal?_plus (by simp [first])]
      rfl
    · rw [plusAsZero_of_head (by simpa using plus)]
      by_cases hyphen : x = '-'
      · rw [hyphen, Text.splitAt, if_pos rfl]
        exact (if_neg nofun).trans (if_neg nofun).symm
      · obtain ⟨piece, pieces, -, split⟩ := splitAt_cons_of_ne hyphen rest
        dsimp only
        rw [split, List.flatten_cons, List.cons_append, readHexadecimal?_of_ne plus]

namespace ReferenceText

variable (t : ReferenceText)

/-- A reference is parted at its hyphens, none of which is a digit. -/
theorem splitAt_chars : Text.splitAt '-' t.chars = t.parts := by
  rw [Text.splitAt_eq_splitOn]
  refine List.splitOn_intercalate '-' (fun part inside hyphen => ?_) ?_
  · have digit := t.each '-' (List.mem_flatten.mpr ⟨part, inside, hyphen⟩)
    cases digit
  · intro none
    have lengths := t.lengths
    rw [none] at lengths
    cases lengths

theorem number_lt : t.number < 2 ^ 128 := by
  have less := digitsValue_lt t.parts.flatten
  have same : 16 ^ 32 = 2 ^ 128 := by norm_num
  rwa [t.length_digits, same, digitsValue_eq_ofDigits] at less

theorem readDigits?_parts : readDigits? 16 t.parts.flatten = some t.number := by
  have some : t.parts.flatten ≠ [] := by
    apply List.ne_nil_of_length_pos
    rw [t.length_digits]
    decide
  rw [readDigits?, if_pos ⟨some, List.all_eq_true.mpr t.each⟩, digitsValue_eq_ofDigits, number]

/-- No character of a reference is blank. -/
theorem trimChars_chars : Text.trimChars t.chars = t.chars := by
  refine Text.trimChars_of_visible fun x member => ?_
  let written (y : Char) : Bool := isDigitIn 16 y || y = '-'
  have others : Text.blanks.all (!written ·) = true := by decide
  exact Text.not_isBlank_of_class others (by simpa [written] using t.digit_of_mem_chars member)

theorem plusAsZero_chars : plusAsZero t.chars = t.chars := by
  refine plusAsZero_of_head fun plus => ?_
  exact absurd (t.digit_of_mem_chars (List.mem_of_mem_head? plus)) (by decide)

end ReferenceText

theorem ofText?_eq_some {s : String} {e : EntityId} : ofText? s = some e ↔
    ∃ t : ReferenceText, plusAsZero (Text.trimChars s.toList) = t.chars ∧ e.bits.toNat = t.number := by
  rw [ofText?_eq]
  constructor
  · intro read
    dsimp only at read
    split at read
    · rename_i lengths
      obtain ⟨n, digits, rfl⟩ := Option.map_eq_some_iff.mp read
      have each := digits
      unfold readDigits? at each
      split at each
      · rename_i held
        let t : ReferenceText := ⟨_, lengths, List.all_eq_true.mp held.2⟩
        have number : n = t.number := Option.some.inj (digits.symm.trans t.readDigits?_parts)
        refine ⟨t, ?_, ?_⟩
        · change _ = ['-'].intercalate (Text.splitAt '-' _)
          rw [Text.splitAt_eq_splitOn, List.intercalate_splitOn]
        · rw [number]
          exact (BitVec.toNat_ofNat ..).trans (Nat.mod_eq_of_lt t.number_lt)
      · cases each
    · cases read
  · rintro ⟨t, text, number⟩
    dsimp only
    rw [text, t.splitAt_chars, if_pos t.lengths, t.readDigits?_parts, ← number]
    simp

/-- Unless it starts with a plus sign, a text is read as a reference exactly when, without the blanks around
it, it is five groups of hexadecimal digits with hyphens between them; then the reference is the number that
all the digits spell, and its text is the one it was read from, in lower case. A plus sign is read as a
zero would be in its place. And every reference is read back from its text. -/
theorem ofText?_of_text (s : String) (e : EntityId) :
    ((Text.trimChars s.toList).head? ≠ some '+' →
      (ofText? s = some e ↔ ∃ t : ReferenceText,
        Text.trimChars s.toList = t.chars ∧ e.bits.toNat = t.number) ∧
      (ofText? s = some e → e.text.toList = (Text.trimChars s.toList).map Char.toLower)) ∧
    (∀ rest, Text.trimChars s.toList = '+' :: rest →
      (ofText? s = some e ↔ ∃ t : ReferenceText, '0' :: rest = t.chars ∧ e.bits.toNat = t.number)) ∧
    ofText? e.text = some e := by
  refine ⟨fun noPlus => ?_, fun rest plus => ?_, ?_⟩
  · have read := ofText?_eq_some (s := s) (e := e)
    rw [plusAsZero_of_head noPlus] at read
    refine ⟨read, fun given => ?_⟩
    obtain ⟨t, text, number⟩ := read.mp given
    rw [text]
    exact text_of_number t number
  · rw [ofText?_eq_some, plus, plusAsZero]
  · let t := ReferenceText.ofEntity e
    refine ofText?_eq_some.mpr ⟨t, ?_, (ReferenceText.number_ofEntity e).symm⟩
    rw [text_toList, t.trimChars_chars, t.plusAsZero_chars]

/-- Blanks around a reference and capitals in it are no part of what is written out; a plus sign is read as
if the text had started with a zero. -/
theorem ofText?_of_text_capitals :
    let s := " 01234567-89AB-CDEF-0011-223344556677\n"
    let e : EntityId := ⟨0x0123456789abcdef0011223344556677⟩
    let withPlus := "+0000000-0000-0000-0000-000000000001"
    (ofText? s = some e ∧ e.text.toList = "01234567-89ab-cdef-0011-223344556677".toList ∧
      ofText? e.text = some e) ∧
      ofText? withPlus = some ⟨1⟩ ∧ ∃ t : ReferenceText,
        "00000000-0000-0000-0000-000000000001".toList = t.chars ∧ (1#128).toNat = t.number := by
  intro s e withPlus
  obtain ⟨exactly, -, back⟩ := ofText?_of_text s e
  have read : ofText? s = some e := by decide +kernel
  have noPlus : (Text.trimChars s.toList).head? ≠ some '+' := by decide
  obtain ⟨-, asZero, -⟩ := ofText?_of_text withPlus ⟨1⟩
  have readPlus : ofText? withPlus = some ⟨1⟩ := by decide +kernel
  exact ⟨⟨read, ((exactly noPlus).2 read).trans (by decide +kernel), back⟩, readPlus,
    (asZero "0000000-0000-0000-0000-000000000001".toList (by decide +kernel)).mp readPlus⟩

/-- A plus sign takes the place of the first digit, though no reference is written with one. -/
theorem ofText?_plus :
    let s := "+0000000-0000-0000-0000-000000000001"
    ofText? s = some ⟨1⟩ ∧ (¬∃ t : ReferenceText, Text.trimChars s.toList = t.chars) ∧
      text ⟨1⟩ = "00000000-0000-0000-0000-000000000001" := by
  refine ⟨by rfl, ?_, by rfl⟩
  rintro ⟨t, text⟩
  have member : '+' ∈ t.chars := text ▸ List.mem_cons_self
  exact absurd (t.digit_of_mem_chars member) (by decide)

end EntityId
end Immediate
