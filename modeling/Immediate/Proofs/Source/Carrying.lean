import Immediate.Proofs.Source.Alike
import Immediate.Proofs.Source.Numerals
/-! Reading carried from one place to another. A reader carries what it reads at one place to a
second one if it reads the same there, whatever it would do where the first reading fails; errors
tell their places, so they are not carried. Literals, names and variables are carried to any place
that is alike. -/
namespace Immediate

open Immediate.Parser

namespace Parser

variable {α β : Type} {R : Cursor → Cursor → Prop} {c d m n : Cursor}

/-- What a reader reads at one place another one reads at the other, and the places behind are in a
relation. -/
def Carries (R : Cursor → Cursor → Prop) (p q : Parser α) (c d : Cursor) : Prop :=
  ∀ a c', p.run c = .ok (a, c') → ∃ d', q.run d = .ok (a, d') ∧ R c' d'

namespace Carries

theorem pure (a : α) (related : R c d) : Carries R (Pure.pure a) (Pure.pure a) c d := by
  intro b c' run
  obtain ⟨rfl, rfl⟩ := run_pure_eq_ok.mp run
  exact ⟨d, rfl, related⟩

theorem failAt (fault : Fault) (position : Nat) (q : Parser α) :
    Carries R (Parser.failAt fault position) q c d := nofun

theorem fail (fault : Fault) (q : Parser α) : Carries R (Parser.fail fault) q c d := nofun

theorem bind {p q : Parser α} {next next' : α → Parser β} (first : Carries R p q c d)
    (second : ∀ a m n, p.run c = .ok (a, m) → R m n → Carries R (next a) (next' a) m n) :
    Carries R (p >>= next) (q >>= next') c d := by
  intro b c' run
  obtain ⟨a, m, ran, others⟩ := run_bind_eq_ok.mp run
  obtain ⟨n, ran', related⟩ := first a m ran
  obtain ⟨d', further, behind⟩ := second a m n ran related b c' others
  exact ⟨d', run_bind_eq_ok.mpr ⟨a, n, ran', further⟩, behind⟩

theorem get_bind {next next' : Cursor → Parser β} (second : Carries R (next c) (next' d) c d) :
    Carries R (get >>= next) (get >>= next') c d := second

theorem since_bind {start start' : Cursor} {next next' : List Char → Parser β}
    (second : Carries R (next (c.since start)) (next' (d.since start')) c d) :
    Carries R (Parser.since start >>= next) (Parser.since start' >>= next') c d := second

theorem ahead_bind {f f' : Cursor → Cursor} {next next' : Cursor → Parser β}
    (second : Carries R (next (f c)) (next' (f' d)) c d) :
    Carries R (Parser.ahead f >>= next) (Parser.ahead f' >>= next') c d := second

theorem set_bind {next next' : PUnit → Parser β} (second : Carries R (next ⟨⟩) (next' ⟨⟩) m n) :
    Carries R (set m >>= next) (set n >>= next') c d := second

theorem modify_bind {f : Cursor → Cursor} {next next' : PUnit → Parser β}
    (second : Carries R (next ⟨⟩) (next' ⟨⟩) (f c) (f d)) :
    Carries R (modify f >>= next) (modify f >>= next') c d := second

theorem ite {condition other : Prop} [Decidable condition] [Decidable other] {p q p' q' : Parser α}
    (same : condition ↔ other) (holds : condition → Carries R p p' c d)
    (fails : ¬condition → Carries R q q' c d) :
    Carries R (if condition then p else q) (if other then p' else q') c d := by
  by_cases held : condition
  · rw [if_pos held, if_pos (same.mp held)]
    exact holds held
  · rw [if_neg held, if_neg fun other => held (same.mpr other)]
    exact fails held

theorem map {f : α → β} {p q : Parser α} (first : Carries R p q c d) :
    Carries R (f <$> p) (f <$> q) c d := by
  rw [map_eq_pure_bind, map_eq_pure_bind]
  exact first.bind fun _ _ _ _ related => pure _ related

section
variable {back back' : List Char} (closes : Cursor.Closes back) (closes' : Cursor.Closes back')
  (alike : Cursor.Alike back back' c d)
include closes closes' alike

theorem skipBlanks_bind {next next' : Unit → Parser β}
    (second : Cursor.Alike back back' c.skipBlanks d.skipBlanks →
      Carries R (next ()) (next' ()) c.skipBlanks d.skipBlanks) :
    Carries R (Parser.skipBlanks >>= next) (Parser.skipBlanks >>= next') c d :=
  second (alike.skipBlanks closes closes')

theorem eat {expected : List Char} (other : ')' ∉ expected) :
    Carries (Cursor.Alike back back') (Parser.eat expected) (Parser.eat expected) c d := by
  intro eaten c' run
  cases here : c.eat? expected with
  | some m =>
    rw [run_eat_of_some here] at run
    cases run
    obtain ⟨n, there, behind⟩ := alike.eat closes other here
    exact ⟨n, run_eat_of_some there, behind⟩
  | none =>
    rw [run_eat_of_none here] at run
    cases run
    exact ⟨d, run_eat_of_none (alike.eat_none closes' other here), alike⟩

theorem eat_bind {expected : List Char} (other : ')' ∉ expected) {next next' : Bool → Parser β}
    (found : ∀ m n, c.eat? expected = some m → Cursor.Alike back back' m n →
      Carries R (next true) (next' true) m n)
    (missing : c.eat? expected = none → Carries R (next false) (next' false) c d) :
    Carries R (Parser.eat expected >>= next) (Parser.eat expected >>= next') c d := by
  intro b c' run
  rcases run_eat_bind_eq_ok.mp run with ⟨m, eaten, run⟩ | ⟨none, run⟩
  · obtain ⟨n, eaten', behind⟩ := alike.eat closes other eaten
    obtain ⟨d', run', related⟩ := found m n eaten behind b c' run
    exact ⟨d', run_eat_bind_eq_ok.mpr (.inl ⟨n, eaten', run'⟩), related⟩
  · obtain ⟨d', run', related⟩ := missing none b c' run
    exact ⟨d', run_eat_bind_eq_ok.mpr (.inr ⟨alike.eat_none closes' other none, run'⟩), related⟩

theorem takeWhile {p : Char → Bool} (other : p ')' = false) :
    Carries (Cursor.Alike back back') (Parser.takeWhile p) (Parser.takeWhile p) c d := by
  obtain ⟨taken, behind⟩ := alike.takeWhile closes closes' other
  intro a c' run
  cases run
  refine ⟨_, ?_, behind⟩
  change (Parser.takeWhile p).run d = .ok ((c.takeWhile p).1, (d.takeWhile p).2)
  rw [← taken]
  rfl

end

end Carries
end Parser

/-! ### Numerals -/

namespace Numeral

/-- The mark of a radix is told by three characters, none of which is a closing parenthesis. -/
theorem radixAt_append (cs more : List Char) : radixAt (cs ++ ')' :: more) = radixAt cs := by
  have still {marked : Prop} {cs : List Char} {y : Char} (other : y ≠ ')')
      (no : ∀ tail, marked → cs = y :: tail → False) (tail : List Char) (mark : marked)
      (equal : cs ++ ')' :: more = y :: tail) : False := by
    cases cs with
    | nil => exact other (List.cons.inj equal).1.symm
    | cons z rest => exact no rest mark (by rw [(List.cons.inj equal).1])
  have unmarked {x : Char} {cs : List Char} (noX : x ≠ 'x') (noCapital : x ≠ 'X')
      (noB : ∀ tail, x = 'b' → cs = '0' :: tail → False)
      (noB' : ∀ tail, x = 'b' → cs = '1' :: tail → False)
      (noCapitalB : ∀ tail, x = 'B' → cs = '0' :: tail → False)
      (noCapitalB' : ∀ tail, x = 'B' → cs = '1' :: tail → False) :
      radixAt ('0' :: x :: (cs ++ ')' :: more)) = if x.isDigit then (8, 0) else (10, 0) :=
    radixAt.eq_7 x _ noX noCapital (still (by decide) noB) (still (by decide) noB')
      (still (by decide) noCapitalB) (still (by decide) noCapitalB')
  fun_cases radixAt cs with
  | case1 | case2 | case3 | case4 | case5 | case6 => rfl
  | case7 x rest noX noCapital noB noB' noCapitalB noCapitalB' digit =>
    exact (unmarked noX noCapital noB noB' noCapitalB noCapitalB').trans (if_pos digit)
  | case8 x rest noX noCapital noB noB' noCapitalB noCapitalB' other =>
    exact (unmarked noX noCapital noB noB' noCapitalB noCapitalB').trans (if_neg other)
  | case9 =>
    rename_i alone
    rcases cs with _ | ⟨x, _ | ⟨y, rest⟩⟩
    · rfl
    · by_cases zero : x = '0'
      · rw [zero]
        rfl
      · exact radixAt_of_ne zero _
    · exact radixAt_of_ne (fun zero => alone y rest (by rw [zero])) _

theorem radixAt_closed {back : List Char} (closes : Cursor.Closes back) (front : List Char) :
    radixAt (front ++ back) = radixAt front := by
  obtain rfl | ⟨more, rfl⟩ := closes
  · rw [List.append_nil]
  · exact radixAt_append front more

theorem radixAt_inside (cs : List Char) : (radixAt cs).2 ≤ cs.length := by
  fun_cases radixAt cs <;> simp

section
variable {back back' : List Char} (closes : Cursor.Closes back) (closes' : Cursor.Closes back')
  {c d : Cursor} (alike : Cursor.Alike back back' c d)
include closes closes' alike

theorem atPoint_alike (radix : Nat) : atPoint radix d = atPoint radix c := by
  have point (o : Option Char) : decide (o = some '.') = o.any (· = '.') := by
    cases o <;> simp
  have noPoint (o : Option Char) : decide (o ≠ some '.') = !o.any (· = '.') := by
    cases o <;> simp
  unfold atPoint
  rw [point, point, noPoint, noPoint, alike.any_current closes closes' rfl]
  by_cases here : c.current? = some '.'
  · rw [alike.any_next closes closes' rfl here (by decide)]
  · rw [← point, decide_eq_false here, Bool.and_false, Bool.false_and, Bool.false_and]

theorem carries_readSign : Carries (Cursor.Alike back back') readSign readSign c d := by
  refine .bind (.eat closes closes' alike (by decide)) fun minus m n _ alike => ?_
  refine .ite Iff.rfl (fun _ => .pure true alike) fun _ => ?_
  refine .bind ?_ fun _ m n _ alike => .pure false alike
  exact .bind (.eat closes closes' alike (by decide)) fun _ m n _ alike => .pure () alike

theorem carries_readRadix : Carries (Cursor.Alike back back') readRadix readRadix c d := by
  obtain ⟨front, here, there⟩ := alike
  have mark : radixAt c.rest = radixAt front := by rw [here, radixAt_closed closes]
  have mark' : radixAt d.rest = radixAt front := by rw [there, radixAt_closed closes']
  rw [readRadix_eq]
  refine .get_bind ?_
  rw [mark, mark']
  exact .set_bind (.pure _ (.advance here there (radixAt_inside front)))

theorem carries_readFraction (radix : Nat) :
    Carries (Cursor.Alike back back') (readFraction radix) (readFraction radix) c d := by
  refine .get_bind ?_
  rw [atPoint_alike closes closes' alike]
  refine .ite Iff.rfl (fun _ => .pure none alike) fun point => ?_
  have here : c.current? = some '.' := by
    simp only [atPoint, Bool.not_eq_true', Bool.not_eq_false, Bool.and_eq_true,
      decide_eq_true_eq] at point
    exact point.1.2
  refine .set_bind ?_
  have behind := alike.advance_current closes here (by decide)
  refine .bind (.takeWhile closes closes' behind rfl) fun fraction m n _ alike => ?_
  refine .get_bind ?_
  rw [atPoint_alike closes closes' alike]
  refine .ite Iff.rfl (fun _ => ?_) fun _ => .pure _ alike
  exact .bind (.fail _ _) fun _ _ _ _ alike => .pure _ alike

theorem carries_readSuffix (radix : Nat) :
    Carries (Cursor.Alike back back') (readSuffix radix) (readSuffix radix) c d := by
  have none : suffix? radix ')' = none := by simp [suffix?]
  refine .get_bind ?_
  rw [alike.bind_current closes closes' none]
  split
  · rename_i found
    obtain ⟨x, current, suffix⟩ := Option.bind_eq_some_iff.mp found
    refine .set_bind (.pure _ (alike.advance_current closes current ?_))
    rintro rfl
    rw [none] at suffix
    cases suffix
  · exact .pure _ alike

/-- A numeral is the same at both places. -/
theorem carries_read : Carries (Cursor.Alike back back') read read c d := by
  refine .get_bind ?_
  refine .bind (carries_readSign closes closes' alike) fun negative m n _ alike => ?_
  refine .bind (carries_readRadix closes closes' alike) fun radix m n _ alike => ?_
  refine .bind (.takeWhile closes closes' alike rfl) fun whole m n _ alike => ?_
  refine .bind (carries_readFraction closes closes' alike radix) fun fraction? m n _ alike => ?_
  refine .ite Iff.rfl (fun _ => .bind (.fail _ _) fun _ _ _ impossible => nomatch impossible)
    fun _ => .get_bind ?_
  refine .bind (carries_readSuffix closes closes' alike radix) fun suffix? m n _ alike => ?_
  split
  · exact .pure _ alike
  · exact .pure _ alike
  · exact .failAt _ _ _
  · exact .pure _ alike
  · refine .ite Iff.rfl (fun _ => .since_bind ?_) fun _ => .pure _ alike
    exact .bind (.failAt _ _ _) fun _ _ _ impossible => nomatch impossible

end
end Numeral

/-! ### Quoted literals -/

namespace Quoted

theorem nextBytes?_append {cs digits : List Char} {count : Nat} (tail : List Char)
    (next : nextBytes? cs count = some digits) : nextBytes? (cs ++ tail) count = some digits := by
  fun_induction nextBytes? cs count generalizing digits with
  | case1 =>
    cases next
    rw [nextBytes?]
  | case2 => cases next
  | case3 x rest count _ small ih =>
    obtain ⟨others, further, rfl⟩ := Option.map_eq_some_iff.mp next
    rw [List.cons_append, nextBytes?, if_pos small, ih further]
    · rfl
    · assumption
  | case4 => cases next

section
variable {tail : List Char} {c d : Cursor} (alike : Cursor.Alike [] tail c d)
include alike

theorem carries_readHexUnit (start start' : Nat) :
    Carries (Cursor.Alike [] tail) (readHexUnit start) (readHexUnit start') c d := by
  rw [readHexUnit_eq, readHexUnit_eq]
  refine .get_bind ?_
  cases next : nextBytes? c.rest 4 with
  | none => exact .failAt _ _ _
  | some digits =>
    rw [alike.rest, nextBytes?_append tail next]
    refine .ite Iff.rfl (fun hex => .set_bind (.pure _ (alike.advance_inside ?_))) fun _ =>
      .failAt _ _ _
    have four : digits.length = 4 := hex.1
    exact four ▸ (starts_nextBytes? next).length_le

theorem carries_readEscape (left : c.rest ≠ []) :
    Carries (Cursor.Alike [] tail) readEscape readEscape c d := by
  have alike := alike.advance_inside (List.length_pos_iff.mpr left)
  refine .get_bind (.modify_bind (.get_bind ?_))
  cases current : (c.advance 1).current? with
  | none => exact .failAt _ _ _
  | some x =>
    rw [alike.whole_current current]
    have behind := alike.advance_whole current
    refine .set_bind (.ite Iff.rfl (fun _ => carries_readHexUnit behind _ _) fun _ => ?_)
    split
    · exact .pure _ behind
    · exact .failAt _ _ _

end

/-- More fuel reads the same units. -/
theorem carries_readUnits {tail : List Char} {c d : Cursor} (alike : Cursor.Alike [] tail c d)
    (start start' : Nat) {fuel fuel' : Nat} (enough : fuel ≤ fuel') :
    Carries (Cursor.Alike [] tail) (readUnits start fuel) (readUnits start' fuel') c d := by
  induction fuel generalizing c d fuel' with
  | zero => exact .failAt _ _ _
  | succ fuel ih =>
    obtain ⟨fuel', rfl⟩ := Nat.exists_eq_add_of_le' (Nat.le_trans (Nat.succ_pos fuel) enough)
    have enough := Nat.le_of_succ_le_succ enough
    refine .get_bind ?_
    cases current : c.current? with
    | none => exact .failAt _ _ _
    | some x =>
      rw [alike.whole_current current]
      have behind := alike.advance_whole current
      refine .ite Iff.rfl (fun _ => .set_bind (.pure _ behind)) fun _ => ?_
      refine .ite Iff.rfl (fun _ => ?_) fun _ => .set_bind ?_
      · have escape := carries_readEscape alike (Cursor.rest_ne_nil current)
        refine .bind escape fun u m n _ alike => ?_
        exact .bind (ih alike enough) fun units m n _ alike => .pure _ alike
      · exact .bind (ih behind enough) fun units m n _ alike => .pure _ alike

section
variable {tail : List Char} {c d : Cursor} (alike : Cursor.Alike [] tail c d)
include alike

theorem carries_readText (left : c.rest ≠ []) :
    Carries (Cursor.Alike [] tail) readText readText c d := by
  have behind := alike.advance_inside (List.length_pos_iff.mpr left)
  have enough : c.rest.length ≤ d.rest.length := by
    rw [alike.rest, List.length_append]
    exact Nat.le_add_right _ _
  refine .get_bind (.set_bind ?_)
  refine .bind (carries_readUnits behind _ _ enough) fun units m n _ alike => ?_
  split
  · exact .pure _ alike
  · exact .failAt _ _ _

theorem carries_readUnit (start start' : Nat) :
    Carries (Cursor.Alike [] tail) (readUnit start) (readUnit start') c d := by
  refine .get_bind ?_
  cases current : c.current? with
  | none => exact .failAt _ _ _
  | some x =>
    rw [alike.whole_current current]
    refine .ite Iff.rfl (fun _ => carries_readEscape alike (Cursor.rest_ne_nil current)) fun _ => ?_
    split
    · refine .ite Iff.rfl (fun _ => ?_) fun _ => .set_bind (.pure _ (alike.advance_whole current))
      exact .bind (.failAt _ _ _) fun _ _ _ impossible => nomatch impossible
    · exact .failAt _ _ _

theorem carries_readChar (closes : Cursor.Closes tail) (left : c.rest ≠ []) :
    Carries (Cursor.Alike [] tail) readChar readChar c d := by
  have behind := alike.advance_inside (List.length_pos_iff.mpr left)
  refine .get_bind (.set_bind ?_)
  refine .bind (carries_readUnit behind _ _) fun u m n _ alike => ?_
  refine .bind (.eat (.inl rfl) closes alike (by decide)) fun eaten m n _ alike => ?_
  exact .ite Iff.rfl (fun _ => .pure _ alike) fun _ => .failAt _ _ _

end
end Quoted

/-! ### Types -/

namespace TypeName

section
variable {back back' : List Char} (closes : Cursor.Closes back) (closes' : Cursor.Closes back')
  (registry : Registry)
include closes closes'

/-- Whatever fuel a type was read with, it is read with any fuel that is enough. -/
theorem carries_both {c d : Cursor} (alike : Cursor.Alike back back' c d) (fuel fuel' : Nat) :
    (2 * d.rest.length + 2 ≤ fuel' → Carries (Cursor.Alike back back') (read registry fuel)
      (read registry fuel') c d) ∧
    (2 * d.rest.length + 3 ≤ fuel' → Carries (Cursor.Alike back back')
      (readChildren registry fuel) (readChildren registry fuel') c d) := by
  induction fuel generalizing c d fuel' with
  | zero => exact ⟨fun _ => .fail _ _, fun _ => .fail _ _⟩
  | succ fuel ih =>
    refine ⟨fun enough => ?_, fun enough => ?_⟩
    · obtain ⟨fuel', rfl⟩ := Nat.exists_eq_add_of_le' (Nat.le_trans (Nat.le_add_left 1 _) enough)
      refine .skipBlanks_bind closes closes' alike fun first => .get_bind ?_
      refine .bind (.takeWhile closes closes' first rfl) fun name m n ran behind => ?_
      dsimp only
      split
      · exact .failAt _ _ _
      · refine .ahead_bind ?_
        have blanks := behind.skipBlanks closes closes'
        cases eaten : m.skipBlanks.eat? ['<'] with
        | none =>
          rw [blanks.eat_none closes' (by decide) eaten]
          exact .pure _ behind
        | some inside =>
          obtain ⟨inside', eaten', within⟩ := blanks.eat closes (by decide) eaten
          rw [eaten']
          refine .set_bind (.bind ((ih within fuel').2 ?_) fun children m n _ behind => ?_)
          · have taken := (Cursor.past_of_blanks_eat? eaten).less
            have before := (TakesOnly.takeWhile c.skipBlanks (fun _ _ => trivial)
              name m ran).onward.length_le
            have blanks := c.onward_skipBlanks.length_le
            have lengths := alike.length
            have lengths' := within.length
            omega
          · split
            · exact .pure _ behind
            · exact .failAt _ _ _
    · obtain ⟨fuel', rfl⟩ := Nat.exists_eq_add_of_le' (Nat.le_trans (Nat.le_add_left 1 _) enough)
      have others (child : Option Ty) {m n : Cursor} (less : m.rest.length ≤ c.rest.length)
          (behind : Cursor.Alike back back' m n) : Carries (Cursor.Alike back back')
            (readOthers registry fuel child) (readOthers registry fuel' child) m n := by
        refine .skipBlanks_bind closes closes' behind fun first => ?_
        refine .eat_bind closes closes' first (by decide) (fun k l eaten further => ?_) fun _ => ?_
        · refine .bind ((ih further fuel').2 ?_) fun _ _ _ _ behind => .pure _ behind
          have taken := (Cursor.past_of_blanks_eat? eaten).less
          have lengths := alike.length
          have lengths' := further.length
          omega
        · exact .eat_bind closes closes' first (by decide) (fun _ _ _ behind => .pure _ behind)
            fun _ => .fail _ _
      rw [readChildren_succ, readChildren_succ]
      refine .skipBlanks_bind closes closes' alike fun first => ?_
      refine .eat_bind closes closes' first (by decide) (fun m n eaten behind => ?_) fun _ => ?_
      · exact others none (Nat.le_of_lt (Cursor.past_of_blanks_eat? eaten).less) behind
      · refine .bind (.map ((ih first fuel').1 ?_)) fun child k l ran behind => ?_
        · have blanks := c.onward_skipBlanks.length_le
          have lengths := alike.length
          have lengths' := first.length
          omega
        · have taken := (TakesOnly.map ((takesOnly_both registry fuel).1 c.skipBlanks)
            child k ran).onward.length_le
          exact others child (Nat.le_trans taken c.onward_skipBlanks.length_le) behind

theorem carries_readHere {c d : Cursor} (alike : Cursor.Alike back back' c d) :
    Carries (Cursor.Alike back back') (readHere registry) (readHere registry) c d :=
  .get_bind ((carries_both closes closes' registry alike _ _).1 (Nat.le_refl _))

end
end TypeName

/-! ### Names and literals -/

namespace Expression

theorem nameChars_closed {back : List Char} (closes : Cursor.Closes back) (front : List Char) :
    nameChars (front ++ back) = nameChars front := by
  fun_induction nameChars front with
  | case1 => rfl
  | case2 x rest noPoints held ih =>
    rw [List.cons_append, nameChars, if_pos held, ih]
    rintro more rfl equal
    cases rest with
    | nil =>
      obtain rfl | ⟨others, rfl⟩ := closes
      · cases equal
      · cases (List.cons.inj equal).1
    | cons y rest => exact noPoints rest rfl (by rw [(List.cons.inj equal).1])
  | case3 x rest noPoints other =>
    rw [List.cons_append, nameChars, if_neg other]
    rintro more rfl
    exact absurd rfl other
  | case4 =>
    obtain rfl | ⟨others, rfl⟩ := closes
    · rfl
    · rfl

section
variable {back back' : List Char} (closes : Cursor.Closes back) (closes' : Cursor.Closes back')
  {c d : Cursor} (alike : Cursor.Alike back back' c d)
include closes closes' alike

theorem name_alike : nameAt d = nameAt c ∧
    Cursor.Alike back back' (afterName c) (afterName d) := by
  obtain ⟨front, here, there⟩ := alike
  have name : nameAt c = nameChars front := by rw [nameAt, here, nameChars_closed closes]
  have name' : nameAt d = nameChars front := by rw [nameAt, there, nameChars_closed closes']
  refine ⟨name'.trans name.symm, ?_⟩
  rw [afterName, afterName, name, name']
  exact .advance here there (starts_nameChars front).length_le

theorem isQualified_alike : isQualified d = isQualified c := by
  have colon (o : Option Char) : decide (o = some ':') = o.any (· = ':') := by
    cases o <;> simp
  unfold isQualified
  rw [colon, colon, alike.any_current closes closes' rfl]
  by_cases here : c.current? = some ':'
  · rw [alike.any_next closes closes' rfl here (by decide)]
  · rw [← colon, decide_eq_false here, Bool.false_and, Bool.false_and]

theorem carries_readVariable (o : CompileOptions) (name : List Char) (start start' : Nat) :
    Carries (Cursor.Alike back back') (readVariable o name start) (readVariable o name start')
      c d := by
  refine .get_bind ?_
  rw [isQualified_alike closes closes' alike]
  split
  · rename_i qualified
    have colon := current_of_isQualified qualified
    have behind := alike.advance_current closes colon (by decide)
    have name : Carries (Cursor.Alike back back') readName readName (c.advance 1)
        (d.advance 1) := by
      obtain ⟨same, after⟩ := name_alike closes closes' behind
      intro path c' run
      rw [run_readName] at run
      cases run
      exact ⟨afterName (d.advance 1), by rw [run_readName, same], after⟩
    refine .set_bind (.bind name fun path m n _ alike => ?_)
    refine .bind (.pure _ alike) fun id? m n _ alike => ?_
    cases id? with
    | ok id => exact .pure _ alike
    | error e => exact .failAt _ _ _
  · refine .bind (.pure _ alike) fun id? m n _ alike => ?_
    cases id? with
    | ok id => exact .pure _ alike
    | error e => exact .failAt _ _ _

end

theorem literal_alike {tail : List Char} (closes : Cursor.Closes tail) {c d c' : Cursor} {v : Value}
    (alike : Cursor.Alike [] tail c d) (literal : Literal c v c') :
    ∃ d', Literal d v d' ∧ Cursor.Alike [] tail c' d' := by
  have whole : Cursor.Closes [] := .inl rfl
  cases literal with
  | signed current sign digits read =>
    obtain ⟨d', read', behind⟩ := Numeral.carries_read whole closes alike _ _ read
    refine ⟨d', .signed (alike.whole_current current) sign ?_ read', behind⟩
    rw [alike.any_next whole closes rfl current (by rcases sign with rfl | rfl <;> decide), digits]
  | numeral current digits read =>
    obtain ⟨d', read', behind⟩ := Numeral.carries_read whole closes alike _ _ read
    refine ⟨d', .numeral (alike.whole_current current) ?_ read', behind⟩
    rcases digits with digit | ⟨rfl, digits⟩
    · exact .inl digit
    · rw [alike.any_next whole closes rfl current (by decide), digits]
      exact .inr ⟨rfl, rfl⟩
  | text current read =>
    have left := Cursor.rest_ne_nil current
    obtain ⟨d', read', behind⟩ := Quoted.carries_readText alike left _ _ read
    exact ⟨d', .text (alike.whole_current current) read', behind⟩
  | char current read =>
    have left := Cursor.rest_ne_nil current
    obtain ⟨d', read', behind⟩ := Quoted.carries_readChar alike closes left _ _ read
    exact ⟨d', .char (alike.whole_current current) read', behind⟩

end Expression
end Immediate
