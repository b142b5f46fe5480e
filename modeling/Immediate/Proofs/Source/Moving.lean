import Immediate.Proofs.Outcomes
import Immediate.Source.Expression
/-! Reading moves on. Whatever is read, the place after it lies at or behind the place before it in
the same text, and a literal takes at least one character. What a successful run was made of is told
by one lemma for each way in which readers are put together. -/
namespace Immediate

namespace Cursor

/-- A second place lies at or behind the first one in the same text. -/
def Onward (c later : Cursor) : Prop := ∃ count, later = c.advance count

@[simp] theorem rest_advance (c : Cursor) (count : Nat) :
    (c.advance count).rest = c.rest.drop count := rfl

theorem current?_of_rest {c : Cursor} {x : Char} {tail : List Char} (here : c.rest = x :: tail) :
    c.current? = some x := congrArg List.head? here

theorem rest_behind {c : Cursor} {x : Char} {tail : List Char} (here : c.rest = x :: tail) :
    (c.advance 1).rest = tail := by
  rw [rest_advance, here]
  rfl

theorem advance_advance (c : Cursor) (count more : Nat) :
    (c.advance count).advance more = c.advance (count + more) := by
  simp only [advance, List.take_add, List.foldl_append, List.drop_drop]

theorem foldl_utf8Size (cs : List Char) (offset : Nat) :
    cs.foldl (· + ·.utf8Size) offset = offset + Text.byteCount cs := by
  induction cs generalizing offset with
  | nil => rfl
  | cons x rest ih =>
    have one : Text.byteCount (x :: rest) = 0 + x.utf8Size + Text.byteCount rest := ih _
    rw [List.foldl_cons, ih, one, Nat.zero_add, Nat.add_assoc]

theorem byteCount_cons (x : Char) (rest : List Char) :
    Text.byteCount (x :: rest) = x.utf8Size + Text.byteCount rest := by
  rw [Text.byteCount, List.foldl_cons, foldl_utf8Size, Nat.zero_add]

theorem offset_advance (c : Cursor) (count : Nat) :
    (c.advance count).offset = c.offset + Text.byteCount (c.rest.take count) :=
  foldl_utf8Size _ _

theorem behindBytes_append (offset : Nat) (text behind : List Char) :
    behindBytes offset (text ++ behind) (Text.byteCount text) =
      ⟨offset + Text.byteCount text, behind⟩ := by
  induction text generalizing offset with
  | nil => exact behindBytes.eq_1 offset behind
  | cons x rest ih =>
    have some := x.utf8Size_pos
    obtain ⟨more, bytes⟩ : ∃ more, Text.byteCount (x :: rest) = more + 1 :=
      Nat.exists_eq_add_one_of_ne_zero (by rw [byteCount_cons]; omega)
    have left : more + 1 - x.utf8Size = Text.byteCount rest := by
      rw [← bytes, byteCount_cons]
      omega
    have whole : x.utf8Size ≤ more + 1 := by
      rw [← bytes, byteCount_cons]
      exact Nat.le_add_right ..
    rw [bytes, List.cons_append, behindBytes, if_pos whole, left, ih, ← bytes, byteCount_cons,
      Nat.add_assoc]

/-- Over text that stands at the cursor, as many bytes as it has lead as far as its characters. -/
theorem advanceBytes_of_prefix {c : Cursor} {text : List Char} (starts : text <+: c.rest) :
    c.advanceBytes (Text.byteCount text) = c.advance text.length := by
  obtain ⟨offset, rest⟩ := c
  obtain ⟨behind, rfl⟩ := starts
  rw [advanceBytes, behindBytes_append, advance, List.take_left, List.drop_left, foldl_utf8Size]

theorem Onward.refl (c : Cursor) : c.Onward c := ⟨0, rfl⟩

theorem Onward.trans {c middle later : Cursor} (first : c.Onward middle)
    (second : middle.Onward later) : c.Onward later := by
  obtain ⟨count, rfl⟩ := first
  obtain ⟨more, rfl⟩ := second
  exact ⟨count + more, advance_advance c count more⟩

theorem onward_advance (c : Cursor) (count : Nat) : c.Onward (c.advance count) := ⟨count, rfl⟩

theorem onward_skipBlanks (c : Cursor) : c.Onward c.skipBlanks := ⟨_, rfl⟩

theorem rest_skipBlanks (c : Cursor) : c.skipBlanks.rest = c.rest.dropWhile Text.isBlank :=
  calc c.skipBlanks.rest
    _ = c.rest.drop (c.rest.takeWhile Text.isBlank).length := rfl
    _ = (c.rest.takeWhile Text.isBlank ++ c.rest.dropWhile Text.isBlank).drop
        (c.rest.takeWhile Text.isBlank).length := by rw [List.takeWhile_append_dropWhile]
    _ = c.rest.dropWhile Text.isBlank := List.drop_left

private theorem takeWhile_behind (p : Char → Bool) (cs : List Char) :
    (cs.drop (cs.takeWhile p).length).takeWhile p = [] := by
  induction cs with
  | nil => rfl
  | cons x rest ih =>
    rw [List.takeWhile_cons]
    cases held : p x with
    | true => exact ih
    | false =>
      change (x :: rest).takeWhile p = []
      rw [List.takeWhile_cons, held]
      rfl

@[simp] theorem skipBlanks_skipBlanks (c : Cursor) : c.skipBlanks.skipBlanks = c.skipBlanks := by
  have none : c.skipBlanks.rest.takeWhile Text.isBlank = [] := takeWhile_behind Text.isBlank c.rest
  change c.skipBlanks.advance (c.skipBlanks.rest.takeWhile Text.isBlank).length = _
  rw [none]
  rfl

theorem skipBlanks_of_current {c : Cursor} {x : Char} (current : c.current? = some x)
    (solid : Text.isBlank x = false) : c.skipBlanks = c := by
  obtain ⟨offset, rest⟩ := c
  cases rest with
  | nil => cases current
  | cons y rest =>
    cases current
    simp [skipBlanks, takeWhile, advance, solid]

theorem skipBlanks_of_rest {c : Cursor} {x : Char} {rest : List Char} (here : c.rest = x :: rest)
    (solid : Text.isBlank x = false) : c.skipBlanks = c :=
  skipBlanks_of_current (current?_of_rest here) solid

theorem onward_takeWhile (c : Cursor) (p : Char → Bool) : c.Onward (c.takeWhile p).2 := ⟨_, rfl⟩

theorem Onward.length_le {c later : Cursor} (onward : c.Onward later) :
    later.rest.length ≤ c.rest.length := by
  obtain ⟨count, rfl⟩ := onward
  rw [rest_advance, List.length_drop]
  exact Nat.sub_le _ _

theorem length_advance_lt (c : Cursor) {count : Nat} (some : 0 < count) (left : c.rest ≠ []) :
    (c.advance count).rest.length < c.rest.length := by
  have nonempty := List.length_pos_iff.mpr left
  rw [rest_advance, List.length_drop]
  omega

/-- A second place lies behind the first one, so that fewer characters are left. -/
structure Past (c later : Cursor) : Prop where
  onward : c.Onward later
  less : later.rest.length < c.rest.length

theorem Past.trans {c middle later : Cursor} (first : c.Past middle)
    (second : middle.Onward later) : c.Past later :=
  ⟨first.onward.trans second, Nat.lt_of_le_of_lt second.length_le first.less⟩

theorem Onward.past {c middle later : Cursor} (first : c.Onward middle)
    (second : middle.Past later) : c.Past later :=
  ⟨first.trans second.onward, Nat.lt_of_lt_of_le second.less first.length_le⟩

theorem past_advance (c : Cursor) {count : Nat} (some : 0 < count) (left : c.rest ≠ []) :
    c.Past (c.advance count) := ⟨c.onward_advance count, c.length_advance_lt some left⟩

theorem rest_ne_nil {c : Cursor} {x : Char} (current : c.current? = some x) : c.rest ≠ [] := by
  intro ended
  rw [current?, ended] at current
  cases current

theorem eat?_of_prefix {c : Cursor} {expected : List Char} (starts : expected <+: c.rest) :
    c.eat? expected = some (c.advance expected.length) := by
  rw [eat?, if_pos (List.isPrefixOf_iff_prefix.mpr starts), advanceBytes_of_prefix starts]

theorem isPrefixOf_of_eat? {c later : Cursor} {expected : List Char}
    (eaten : c.eat? expected = some later) :
    expected <+: c.rest ∧ later = c.advance expected.length := by
  unfold eat? at eaten
  split at eaten
  · rename_i starts
    cases eaten
    have stands := List.isPrefixOf_iff_prefix.mp starts
    exact ⟨stands, advanceBytes_of_prefix stands⟩
  · cases eaten

theorem onward_of_eat? {c later : Cursor} {expected : List Char}
    (eaten : c.eat? expected = some later) : c.Onward later :=
  ⟨_, (isPrefixOf_of_eat? eaten).2⟩

theorem past_of_eat? {c later : Cursor} {x : Char} {more : List Char}
    (eaten : c.eat? (x :: more) = some later) : c.Past later := by
  obtain ⟨starts, rfl⟩ := isPrefixOf_of_eat? eaten
  refine c.past_advance (Nat.succ_pos _) ?_
  intro ended
  rw [ended, List.prefix_nil] at starts
  cases starts

/-- Characters that stand behind blanks. -/
theorem past_of_blanks_eat? {c later : Cursor} {x : Char} {more : List Char}
    (eaten : c.skipBlanks.eat? (x :: more) = some later) : c.Past later :=
  c.onward_skipBlanks.past (past_of_eat? eaten)

theorem past_of_current? {c : Cursor} {x : Char} (current : c.current? = some x) :
    c.Past (c.advance 1) := c.past_advance Nat.one_pos (rest_ne_nil current)

/-- The characters between two places are of a class. -/
def Through (class_ : Char → Prop) (c later : Cursor) : Prop :=
  ∃ count, later = c.advance count ∧ ∀ x ∈ c.rest.take count, class_ x

section Through

variable {class_ : Char → Prop} {c middle later : Cursor}

theorem Through.refl (c : Cursor) : c.Through class_ c := ⟨0, rfl, nofun⟩

theorem Through.trans (first : c.Through class_ middle) (second : middle.Through class_ later) :
    c.Through class_ later := by
  obtain ⟨count, rfl, before⟩ := first
  obtain ⟨more, rfl, behind⟩ := second
  refine ⟨count + more, advance_advance c count more, fun x member => ?_⟩
  rw [List.take_add] at member
  exact (List.mem_append.mp member).elim (before x) (behind x)

theorem Through.onward (through : c.Through class_ later) : c.Onward later := by
  obtain ⟨count, rfl, -⟩ := through
  exact c.onward_advance count

theorem Onward.through (onward : c.Onward later) : c.Through (fun _ => True) later := by
  obtain ⟨count, rfl⟩ := onward
  exact ⟨count, rfl, fun _ _ => trivial⟩

theorem through_advance {text : List Char} (starts : text <+: c.rest)
    (each : ∀ x ∈ text, class_ x) : c.Through class_ (c.advance text.length) := by
  refine ⟨text.length, rfl, ?_⟩
  rwa [← List.prefix_iff_eq_take.mp starts]

theorem through_of_current? {x : Char} (current : c.current? = some x) (held : class_ x) :
    c.Through class_ (c.advance 1) := by
  refine through_advance (?_ : [x] <+: c.rest) (by simpa using held)
  obtain ⟨offset, rest⟩ := c
  cases rest with
  | nil => cases current
  | cons y rest =>
    cases current
    exact ⟨rest, rfl⟩

theorem through_takeWhile (c : Cursor) {p : Char → Bool} (each : ∀ x, p x = true → class_ x) :
    c.Through class_ (c.takeWhile p).2 :=
  through_advance (List.takeWhile_prefix p) fun x member =>
    each x (List.all_eq_true.mp List.all_takeWhile x member)

theorem through_skipBlanks (c : Cursor) (blank : ∀ x, Text.isBlank x = true → class_ x) :
    c.Through class_ c.skipBlanks := c.through_takeWhile blank

theorem through_of_eat? {expected : List Char} (eaten : c.eat? expected = some later)
    (each : ∀ x ∈ expected, class_ x) : c.Through class_ later := by
  obtain ⟨starts, rfl⟩ := isPrefixOf_of_eat? eaten
  exact through_advance starts each

end Through

theorem current?_of_eat? {c c' : Cursor} {x : Char} {more : List Char}
    (eaten : c.eat? (x :: more) = some c') : c.current? = some x := by
  obtain ⟨⟨rest, equal⟩, -⟩ := isPrefixOf_of_eat? eaten
  simp [current?, ← equal]

theorem eat?_eq_none {c : Cursor} {x : Char} {more : List Char}
    (other : c.current? ≠ some x) : c.eat? (x :: more) = none := by
  cases eaten : c.eat? (x :: more) with
  | none => rfl
  | some c' => exact absurd (current?_of_eat? eaten) other

theorem eat?_eq_some {c : Cursor} {x : Char} (current : c.current? = some x) :
    c.eat? [x] = some (c.advance 1) := by
  obtain ⟨offset, rest⟩ := c
  cases rest with
  | nil => cases current
  | cons y rest =>
    cases current
    exact eat?_of_prefix (List.prefix_append [x] rest)

end Cursor

namespace Parser

variable {α β : Type} {p : Parser α} {next : α → Parser β} {c c' m : Cursor} {a : α} {b : β}

/-! ### Readers put together -/

theorem ext {q : Parser α} (run : ∀ c, p.run c = q.run c) (spans : ∀ c, p.spans c = q.spans c) :
    p = q :=
  congr (congrArg Parser.mk (funext run)) (funext spans)

instance : LawfulMonad Parser := LawfulMonad.mk' Parser
  (fun p => by
    change p.bind Pure.pure = p
    refine ext (fun c => ?_) (fun c => ?_)
    · simp only [bind]
      cases p.run c <;> rfl
    · simp only [bind]
      cases p.run c <;> exact List.append_nil _)
  (fun a next => rfl)
  (fun p next last => by
    change (p.bind next).bind last = p.bind fun a => (next a).bind last
    refine ext (fun c => ?_) (fun c => ?_)
    · simp only [bind]
      cases p.run c <;> rfl
    · simp only [bind]
      cases p.run c with
      | error e => exact List.append_nil _
      | ok pair => exact List.append_assoc ..)

/-! ### Runs of readers put together -/

theorem run_bind (first : p.run c = .ok (a, m)) : (p >>= next).run c = (next a).run m := by
  change (p.bind next).run c = _
  simp only [bind, first]

theorem run_bind_of_error {e : CompileError} (failed : p.run c = .error e) :
    (p >>= next).run c = .error e := by
  change (p.bind next).run c = _
  simp only [bind, failed]

theorem run_bind_eq_ok : (p >>= next).run c = .ok (b, c') ↔
    ∃ a m, p.run c = .ok (a, m) ∧ (next a).run m = .ok (b, c') := by
  cases ran : p.run c with
  | error e =>
    rw [run_bind_of_error ran]
    exact ⟨nofun, fun ⟨_, _, impossible, _⟩ => nomatch impossible⟩
  | ok pair =>
    obtain ⟨a, m⟩ := pair
    rw [run_bind ran]
    refine ⟨fun held => ⟨a, m, rfl, held⟩, ?_⟩
    rintro ⟨a', m', equal, held⟩
    cases equal
    exact held

theorem run_pure_eq_ok {b' : α} : (pure a : Parser α).run c = .ok (b', c') ↔ a = b' ∧ c = c' := by
  change Except.ok (a, c) = .ok (b', c') ↔ _
  rw [Except.ok.injEq, Prod.mk.injEq]

/-- Behind a check, what was checked holds. -/
theorem run_check_eq_ok {bad : Prop} [Decidable bad] {failing : Parser α} {next : α → Parser β}
    {next' : Parser β} (fails : ∀ c, ∃ e, failing.run c = .error e) :
    (if bad then failing >>= next else next').run c = .ok (b, c') ↔
      ¬bad ∧ next'.run c = .ok (b, c') := by
  by_cases held : bad
  · rw [if_pos held]
    refine ⟨fun run => ?_, fun ⟨not, _⟩ => absurd held not⟩
    obtain ⟨e, failed⟩ := fails c
    obtain ⟨a, m, impossible, -⟩ := run_bind_eq_ok.mp run
    rw [failed] at impossible
    cases impossible
  · rw [if_neg held]
    exact ⟨fun run => ⟨held, run⟩, fun ⟨_, run⟩ => run⟩

theorem run_skipBlanks_bind {next : Unit → Parser β} :
    (skipBlanks >>= next).run c = (next ()).run c.skipBlanks := rfl

theorem run_get_bind {next : Cursor → Parser β} : (get >>= next).run c = (next c).run c := rfl

theorem run_set_bind {next : PUnit → Parser β} :
    (set m >>= next).run c = (next ⟨⟩).run m := rfl

theorem run_ahead_bind {f : Cursor → Cursor} {next : Cursor → Parser β} :
    (ahead f >>= next).run c = (next (f c)).run c := rfl

theorem run_modify_bind {f : Cursor → Cursor} {next : PUnit → Parser β} :
    (modify f >>= next).run c = (next ⟨⟩).run (f c) := rfl

theorem run_takeWhile_bind {class_ : Char → Bool} {next : List Char → Parser β} :
    (takeWhile class_ >>= next).run c = (next (c.takeWhile class_).1).run (c.takeWhile class_).2 :=
  rfl

theorem run_eat_of_some {expected : List Char} (eaten : c.eat? expected = some m) :
    (eat expected).run c = .ok (true, m) := by
  rw [eat, run_get_bind, eaten]
  rfl

theorem run_eat_of_none {expected : List Char} (missing : c.eat? expected = none) :
    (eat expected).run c = .ok (false, c) := by
  rw [eat, run_get_bind, missing]
  rfl

theorem run_eat_bind_eq_ok {expected : List Char} {next : Bool → Parser β} :
    (eat expected >>= next).run c = .ok (b, c') ↔
      (∃ m, c.eat? expected = some m ∧ (next true).run m = .ok (b, c')) ∨
        (c.eat? expected = none ∧ (next false).run c = .ok (b, c')) := by
  cases eaten : c.eat? expected with
  | some m =>
    rw [run_bind (run_eat_of_some eaten)]
    refine ⟨fun run => .inl ⟨m, rfl, run⟩, ?_⟩
    rintro (⟨m', equal, run⟩ | ⟨impossible, -⟩)
    · cases equal
      exact run
    · cases impossible
  | none =>
    rw [run_bind (run_eat_of_none eaten)]
    refine ⟨fun run => .inr ⟨rfl, run⟩, ?_⟩
    rintro (⟨m', impossible, -⟩ | ⟨-, run⟩)
    · cases impossible
    · exact run

theorem run_expect_eq_ok {x : Char} {what : Expected} {u : Unit} :
    (expect x what).run c = .ok (u, c') ↔ c.skipBlanks.eat? [x] = some c' := by
  unfold expect
  rw [run_skipBlanks_bind, run_eat_bind_eq_ok]
  constructor
  · rintro (⟨m, eaten, run⟩ | ⟨-, impossible⟩)
    · cases run
      exact eaten
    · cases impossible
  · intro eaten
    exact .inl ⟨c', eaten, rfl⟩

theorem run_finish_eq_ok {u : Unit} :
    finish.run c = .ok (u, c') ↔ c.skipBlanks = c' ∧ c.skipBlanks.current? = none := by
  unfold finish
  rw [run_skipBlanks_bind, run_get_bind]
  cases c.skipBlanks.current? with
  | none =>
    rw [run_pure_eq_ok]
    exact ⟨fun ⟨_, equal⟩ => ⟨equal, rfl⟩, fun ⟨equal, _⟩ => ⟨rfl, equal⟩⟩
  | some x => exact ⟨nofun, fun ⟨_, impossible⟩ => nomatch impossible⟩

/-- A text is read when nothing but blanks is left of it. -/
theorem readAll_eq_ok {s : String} :
    p.readAll s = .ok a ↔ ∃ c', p.run (.start s) = .ok (a, c') ∧ c'.skipBlanks.current? = none := by
  unfold readAll
  rw [Outcome.bind_eq_ok]
  constructor
  · rintro ⟨⟨read, after⟩, run, equal⟩
    cases equal
    obtain ⟨read, c', ran, run⟩ := run_bind_eq_ok.mp run
    obtain ⟨_, m, finished, run⟩ := run_bind_eq_ok.mp run
    obtain ⟨rfl, rfl⟩ := run_pure_eq_ok.mp run
    exact ⟨c', ran, (run_finish_eq_ok.mp finished).2⟩
  · rintro ⟨c', run, ended⟩
    refine ⟨(a, c'.skipBlanks), ?_, rfl⟩
    exact run_bind_eq_ok.mpr ⟨a, c', run, run_bind_eq_ok.mpr
      ⟨(), c'.skipBlanks, run_finish_eq_ok.mpr ⟨rfl, ended⟩, rfl⟩⟩

/-! ### Moving on -/

/-- Whatever a reader reads from a place, it ends at that place or behind it. -/
def MovesOn (p : Parser α) (c : Cursor) : Prop := ∀ a c', p.run c = .ok (a, c') → c.Onward c'

/-- A reader takes only characters of a class from a place on. -/
def TakesOnly (class_ : Char → Prop) (p : Parser α) (c : Cursor) : Prop :=
  ∀ a c', p.run c = .ok (a, c') → c.Through class_ c'

/-- A reader does not succeed from a place without taking a character. -/
def Takes (p : Parser α) (c : Cursor) : Prop :=
  ∀ a c', p.run c = .ok (a, c') → c.Past c'

namespace TakesOnly

variable {class_ : Char → Prop}

theorem iff_movesOn : p.TakesOnly (fun _ => True) c ↔ p.MovesOn c :=
  ⟨fun only a c' run => (only a c' run).onward, fun moves a c' run => (moves a c' run).through⟩

theorem pure (a : α) (c : Cursor) : (Pure.pure a : Parser α).TakesOnly class_ c := by
  intro b c' run
  obtain ⟨-, rfl⟩ := run_pure_eq_ok.mp run
  exact .refl c

theorem failAt (fault : Fault) (position : Nat) (c : Cursor) :
    (Parser.failAt fault position : Parser α).TakesOnly class_ c := nofun

theorem fail (fault : Fault) (c : Cursor) : (Parser.fail fault : Parser α).TakesOnly class_ c :=
  nofun

theorem bind (first : p.TakesOnly class_ c)
    (second : ∀ a m, c.Through class_ m → (next a).TakesOnly class_ m) :
    (p >>= next).TakesOnly class_ c := by
  intro b c' run
  obtain ⟨a, m, ran, others⟩ := run_bind_eq_ok.mp run
  have through := first a m ran
  exact through.trans (second a m through b c' others)

/-- Moving to a place behind. -/
theorem set_bind {next : PUnit → Parser β} (through : c.Through class_ m)
    (second : (next ⟨⟩).TakesOnly class_ m) : (set m >>= next).TakesOnly class_ c :=
  fun b c' run => through.trans (second b c' run)

theorem get_bind {next : Cursor → Parser β} (second : (next c).TakesOnly class_ c) :
    (get >>= next).TakesOnly class_ c := second

theorem since_bind {start : Cursor} {next : List Char → Parser β}
    (second : (next (c.since start)).TakesOnly class_ c) :
    (since start >>= next).TakesOnly class_ c := second

theorem ahead_bind {f : Cursor → Cursor} {next : Cursor → Parser β}
    (second : (next (f c)).TakesOnly class_ c) : (ahead f >>= next).TakesOnly class_ c := second

theorem modify_bind {f : Cursor → Cursor} {next : PUnit → Parser β}
    (through : c.Through class_ (f c)) (second : (next ⟨⟩).TakesOnly class_ (f c)) :
    (modify f >>= next).TakesOnly class_ c :=
  fun b c' run => through.trans (second b c' run)

theorem map {f : α → β} (first : p.TakesOnly class_ c) : (f <$> p).TakesOnly class_ c := by
  rw [map_eq_pure_bind]
  exact first.bind fun _ m _ => pure _ m

theorem ite {condition : Prop} [Decidable condition] {q : Parser α}
    (holds : condition → p.TakesOnly class_ c) (fails : ¬condition → q.TakesOnly class_ c) :
    (if condition then p else q).TakesOnly class_ c := by
  split
  · exact holds ‹_›
  · exact fails ‹_›

theorem skipBlanks (c : Cursor) (blank : ∀ x, Text.isBlank x = true → class_ x) :
    Parser.skipBlanks.TakesOnly class_ c := by
  rintro ⟨⟩ c' run
  cases run
  exact c.through_skipBlanks blank

theorem takeWhile (c : Cursor) {p : Char → Bool} (each : ∀ x, p x = true → class_ x) :
    (Parser.takeWhile p).TakesOnly class_ c := by
  intro taken c' run
  cases run
  exact c.through_takeWhile each

theorem eat (c : Cursor) {expected : List Char} (each : ∀ x ∈ expected, class_ x) :
    (Parser.eat expected).TakesOnly class_ c := by
  intro eaten c' run
  cases found : c.eat? expected with
  | some after =>
    rw [run_eat_of_some found] at run
    cases run
    exact Cursor.through_of_eat? found each
  | none =>
    rw [run_eat_of_none found] at run
    cases run
    exact .refl c

end TakesOnly

theorem Takes.get_bind {next : Cursor → Parser β} (second : (next c).Takes c) :
    (get >>= next).Takes c := second

theorem Takes.set_bind {next : PUnit → Parser β} (past : c.Past m)
    (second : (next ⟨⟩).MovesOn m) : (set m >>= next).Takes c :=
  fun b c' run => past.trans (second b c' run)

end Parser

open Immediate.Parser

namespace Numeral

/-- The characters that numerals are made of. -/
def Written (x : Char) : Prop :=
  (∃ radix, isDigitIn radix x = true) ∨
    x ∈ ['l', 'L', 'b', 'B', 's', 'S', 'f', 'F', 'x', 'X', '+', '-', '.']

theorem written_of_isDigitIn {radix : Nat} {x : Char} (digit : isDigitIn radix x = true) :
    Written x := .inl ⟨radix, digit⟩

theorem written_of_suffix? {radix : Nat} {x : Char} {suffix : Suffix}
    (found : suffix? radix x = some suffix) : Written x := by
  right
  unfold suffix? at found
  grind

theorem through_radixAt (c : Cursor) : c.Through Written (c.advance (radixAt c.rest).2) := by
  have zero : Written '0' := .inl ⟨10, rfl⟩
  refine ⟨_, rfl, ?_⟩
  generalize c.rest = cs
  unfold radixAt
  split
  case h_7 => split <;> exact nofun
  case h_8 => exact nofun
  all_goals
    simp only [List.take_succ_cons, List.take_zero, List.mem_cons, List.not_mem_nil, or_false]
    rintro x (rfl | rfl)
    · exact zero
    · simp [Written]

theorem takesOnly_readSign (c : Cursor) : readSign.TakesOnly Written c := by
  refine .bind (.eat c (by simp [Written])) fun minus m _ => ?_
  refine .ite (fun _ => .pure true m) fun _ => ?_
  refine .bind ?_ fun _ m _ => .pure false m
  exact .bind (.eat m (by simp [Written])) fun _ m _ => .pure () m

/-- The mark of a radix takes a byte for each character. -/
theorem advanceBytes_radixAt (c : Cursor) :
    c.advanceBytes (radixAt c.rest).2 = c.advance (radixAt c.rest).2 := by
  have mark (cs : List Char) : ∃ text, text <+: cs ∧
      Text.byteCount text = (radixAt cs).2 ∧ text.length = (radixAt cs).2 := by
    unfold radixAt
    split
    case h_7 => split <;> exact ⟨[], List.nil_prefix, rfl, rfl⟩
    case h_8 => exact ⟨[], List.nil_prefix, rfl, rfl⟩
    all_goals exact ⟨[_, _], List.prefix_append .., rfl, rfl⟩
  obtain ⟨text, starts, bytes, long⟩ := mark c.rest
  rw [← bytes, Cursor.advanceBytes_of_prefix starts, bytes, long]

theorem readRadix_eq : readRadix = (do
    let cursor ← get
    set (cursor.advance (radixAt cursor.rest).2)
    return (radixAt cursor.rest).1) :=
  congrArg (get >>= ·) (funext fun c => by rw [← advanceBytes_radixAt])

theorem takesOnly_readRadix (c : Cursor) : readRadix.TakesOnly Written c := by
  rw [readRadix_eq]
  exact .get_bind (.set_bind (through_radixAt c) (.pure _ _))

theorem takesOnly_readFraction (radix : Nat) (c : Cursor) :
    (readFraction radix).TakesOnly Written c := by
  refine .get_bind (.ite (fun _ => .pure none c) fun point => ?_)
  have here : c.current? = some '.' := by
    simp only [atPoint, Bool.not_eq_true', Bool.not_eq_false, Bool.and_eq_true,
      decide_eq_true_eq] at point
    exact point.1.2
  refine .set_bind (Cursor.through_of_current? here (by simp [Written])) ?_
  refine .bind (.takeWhile _ fun _ => written_of_isDigitIn) fun fraction m _ => ?_
  refine .get_bind (.ite (fun _ => ?_) fun _ => .pure _ m)
  exact .bind (.fail _ m) fun _ m _ => .pure _ m

/-- A fraction takes its point. -/
theorem length_of_readFraction {radix : Nat} {c c' : Cursor} {fraction : List Char}
    (run : (readFraction radix).run c = .ok (some fraction, c')) :
    c'.rest.length < c.rest.length := by
  unfold readFraction at run
  rw [run_get_bind] at run
  split at run
  · cases run
  · rename_i point
    have here : atPoint radix c = true := by simpa using point
    have left : c.rest ≠ [] := by
      simp only [atPoint, Bool.and_eq_true, decide_eq_true_eq] at here
      exact Cursor.rest_ne_nil here.1.2
    rw [run_set_bind, run_takeWhile_bind] at run
    have less := c.length_advance_lt Nat.one_pos left
    have onward := ((c.advance 1).onward_takeWhile (isDigitIn radix)).length_le
    rw [run_get_bind] at run
    split at run
    · cases run
    · cases run
      exact Nat.lt_of_le_of_lt onward less

theorem takesOnly_readSuffix (radix : Nat) (c : Cursor) :
    (readSuffix radix).TakesOnly Written c := by
  refine .get_bind ?_
  split
  · rename_i found
    obtain ⟨x, current, suffix⟩ := Option.bind_eq_some_iff.mp found
    exact .set_bind (Cursor.through_of_current? current (written_of_suffix? suffix)) (.pure _ _)
  · exact .pure none c

/-- A numeral is made of its characters, with a digit before or behind its point. -/
theorem through_read {c c' : Cursor} {v : Value} (run : read.run c = .ok (v, c')) :
    c.Through Written c' ∧ c.Past c' := by
  unfold read at run
  rw [run_get_bind] at run
  obtain ⟨negative, signed, ranSign, run⟩ := run_bind_eq_ok.mp run
  obtain ⟨radix, marked, ranRadix, run⟩ := run_bind_eq_ok.mp run
  rw [run_takeWhile_bind] at run
  obtain ⟨fraction?, c4, ranFraction, run⟩ := run_bind_eq_ok.mp run
  have before := (takesOnly_readSign c negative signed ranSign).trans
    (takesOnly_readRadix signed radix marked ranRadix)
  have taken : marked.Through Written (marked.takeWhile (isDigitIn radix)).2 :=
    marked.through_takeWhile fun _ => written_of_isDigitIn
  have further := takesOnly_readFraction radix _ fraction? c4 ranFraction
  obtain ⟨digits, run⟩ := (run_check_eq_ok fun c => ⟨_, rfl⟩).mp run
  have past : marked.Past c4 := by
    refine ⟨(taken.trans further).onward, ?_⟩
    cases fraction? with
    | some fraction =>
      exact Nat.lt_of_lt_of_le (length_of_readFraction ranFraction) taken.onward.length_le
    | none =>
      refine Nat.lt_of_le_of_lt further.onward.length_le (Cursor.length_advance_lt _ ?_ ?_)
      · rw [List.length_pos_iff]
        intro empty
        simp [Cursor.takeWhile, empty] at digits
      · intro ended
        simp [Cursor.takeWhile, ended] at digits
  have last : c4.Through Written c' := by
    refine TakesOnly.get_bind (.bind (takesOnly_readSuffix radix c4) fun suffix? m _ => ?_) v c' run
    split
    · exact .pure _ m
    · exact .pure _ m
    · exact .failAt _ _ m
    · exact .pure _ m
    · refine .ite (fun _ => .since_bind ?_) fun _ => .pure _ m
      exact .bind (.failAt _ _ m) fun _ m _ => .pure _ m
  exact ⟨before.trans ((taken.trans further).trans last),
    before.onward.past (past.trans last.onward)⟩

end Numeral

namespace Quoted

theorem starts_nextBytes? {cs bytes : List Char} {count : Nat}
    (found : nextBytes? cs count = some bytes) : bytes <+: cs := by
  fun_induction nextBytes? cs count generalizing bytes with
  | case1 => cases found; exact List.nil_prefix
  | case2 => cases found
  | case3 x rest count _ _ ih =>
    obtain ⟨behind, others, rfl⟩ := Option.map_eq_some_iff.mp found
    exact List.cons_prefix_cons.mpr ⟨rfl, ih others⟩
  | case4 => cases found

theorem byteCount_of_nextBytes? {cs bytes : List Char} {count : Nat}
    (found : nextBytes? cs count = some bytes) : Text.byteCount bytes = count := by
  fun_induction nextBytes? cs count generalizing bytes with
  | case1 => cases found; rfl
  | case2 => cases found
  | case3 x rest count within _ ih =>
    obtain ⟨behind, others, rfl⟩ := Option.map_eq_some_iff.mp found
    rw [Cursor.byteCount_cons, ih others]
    omega
  | case4 => cases found

/-- Four characters in four bytes. -/
theorem advanceBytes_four {c : Cursor} (long : ((nextBytes? c.rest 4).getD []).length = 4) :
    c.advanceBytes 4 = c.advance 4 := by
  cases found : nextBytes? c.rest 4 with
  | none =>
    rw [found] at long
    cases long
  | some digits =>
    rw [found] at long
    have moved := Cursor.advanceBytes_of_prefix (starts_nextBytes? found)
    rw [byteCount_of_nextBytes? found] at moved
    exact moved.trans (congrArg c.advance long)

theorem readHexUnit_eq (start : Nat) : readHexUnit start = (do
    let cursor ← get
    let digits := (nextBytes? cursor.rest 4).getD []
    if digits.length = 4 ∧ digits.all (isDigitIn 16) then
      set (cursor.advance 4)
      return (digitsValue 16 digits).toUInt16
    else Parser.failAt (.invalidEscape (String.ofList ('u' :: digits))) start) := by
  refine congrArg (get >>= ·) (funext fun c => ite_congr rfl (fun held => ?_) fun _ => rfl)
  rw [advanceBytes_four held.1]

theorem movesOn_readHexUnit (start : Nat) (c : Cursor) : (readHexUnit start).MovesOn c := by
  rw [readHexUnit_eq]
  refine TakesOnly.iff_movesOn.mp (.get_bind (.ite (fun _ => ?_) fun _ => .failAt _ _ c))
  exact .set_bind (c.onward_advance 4).through (.pure _ _)

theorem movesOn_readEscape (c : Cursor) : readEscape.MovesOn c := by
  refine TakesOnly.iff_movesOn.mp (.get_bind ?_)
  refine .modify_bind (c.onward_advance 1).through (.get_bind ?_)
  split
  · exact .failAt _ _ _
  · refine .set_bind (Cursor.onward_advance _ 1).through (.ite (fun _ => ?_) fun _ => ?_)
    · exact TakesOnly.iff_movesOn.mpr (movesOn_readHexUnit _ _)
    · split
      · exact .pure _ _
      · exact .failAt _ _ _

theorem movesOn_readUnits (start : Nat) (fuel : Nat) (c : Cursor) :
    (readUnits start fuel).MovesOn c := by
  induction fuel generalizing c with
  | zero => exact nofun
  | succ fuel ih =>
    refine TakesOnly.iff_movesOn.mp (.get_bind ?_)
    split
    · exact .failAt _ _ c
    · have next := (c.onward_advance 1).through
      refine .ite (fun _ => .set_bind next (.pure _ _)) fun _ => .ite (fun _ => ?_) fun _ => ?_
      · refine .bind (TakesOnly.iff_movesOn.mpr (movesOn_readEscape c)) fun _ m _ => ?_
        exact .bind (TakesOnly.iff_movesOn.mpr (ih m)) fun _ m _ => .pure _ m
      · exact .set_bind next (.bind (TakesOnly.iff_movesOn.mpr (ih _)) fun _ m _ => .pure _ m)

theorem takes_readText {c : Cursor} (left : c.rest ≠ []) : readText.Takes c := by
  refine Takes.get_bind (.set_bind (c.past_advance Nat.one_pos left) ?_)
  have units := TakesOnly.iff_movesOn.mpr (movesOn_readUnits c.offset c.rest.length (c.advance 1))
  refine TakesOnly.iff_movesOn.mp (.bind units fun units m _ => ?_)
  split
  · exact .pure _ m
  · exact .failAt _ _ m

theorem movesOn_readUnit (start : Nat) (c : Cursor) : (readUnit start).MovesOn c := by
  refine TakesOnly.iff_movesOn.mp (.get_bind ?_)
  split
  · exact .failAt _ _ c
  · refine .ite (fun _ => TakesOnly.iff_movesOn.mpr (movesOn_readEscape c)) fun _ => ?_
    split
    · refine .ite (fun _ => ?_) fun _ => .set_bind (c.onward_advance 1).through (.pure _ _)
      intro _ _ impossible
      cases impossible
    · exact .failAt _ _ c

theorem takes_readChar {c : Cursor} (left : c.rest ≠ []) : readChar.Takes c := by
  refine Takes.get_bind (.set_bind (c.past_advance Nat.one_pos left) ?_)
  have unit := TakesOnly.iff_movesOn.mpr (movesOn_readUnit c.offset (c.advance 1))
  refine TakesOnly.iff_movesOn.mp (.bind unit fun unit m _ => ?_)
  refine .bind (.eat m fun _ _ => trivial) fun _ m _ => ?_
  exact .ite (fun _ => .pure _ m) fun _ => .failAt _ _ m

end Quoted

namespace TypeName

/-- The characters that types are made of. -/
def Written (x : Char) : Prop :=
  isNameChar x = true ∨ Text.isBlank x = true ∨ x ∈ ['<', '>', ',', '?']

instance : DecidablePred Written := fun x =>
  inferInstanceAs (Decidable (isNameChar x = true ∨ Text.isBlank x = true ∨ _))

/-- Reads what stands behind a child: further children behind a comma, or the closing bracket. -/
def readOthers (registry : Registry) (fuel : Nat) (child : Option Ty) :
    Parser (List (Option Ty)) := do
  Parser.skipBlanks
  if ← Parser.eat [','] then return child :: (← readChildren registry fuel)
  else if ← Parser.eat ['>'] then return [child]
  else Parser.fail (.expected .commaOrAngle)

theorem readChildren_succ (registry : Registry) (fuel : Nat) :
    readChildren registry (fuel + 1) = (do
      Parser.skipBlanks
      if ← Parser.eat ['?'] then readOthers registry fuel none
      else
        let child ← some <$> read registry fuel
        readOthers registry fuel child) := by
  rw [readChildren]
  rfl

/-- The place behind a name and the blanks before it. -/
def nameEnd (c : Cursor) : Cursor := (c.skipBlanks.takeWhile isNameChar).2

theorem through_nameEnd {class_ : Char → Prop} (blank : ∀ x, Text.isBlank x = true → class_ x)
    (name : ∀ x, isNameChar x = true → class_ x) (c : Cursor) :
    c.Through class_ (nameEnd c).skipBlanks :=
  (c.through_skipBlanks blank).trans
    ((c.skipBlanks.through_takeWhile name).trans ((nameEnd c).through_skipBlanks blank))

theorem written_of_isBlank (x : Char) (blank : Text.isBlank x = true) : Written x :=
  .inr (.inl blank)

theorem takesOnly_both (registry : Registry) (fuel : Nat) :
    (∀ c, (read registry fuel).TakesOnly Written c) ∧
      ∀ c, (readChildren registry fuel).TakesOnly Written c := by
  have blank := written_of_isBlank
  induction fuel with
  | zero => exact ⟨fun c => .fail _ c, fun c => .fail _ c⟩
  | succ fuel ih =>
    refine ⟨fun c => ?_, fun c => ?_⟩
    · refine .bind (.skipBlanks c blank) fun _ m _ => .get_bind ?_
      refine .bind (.takeWhile m fun _ => .inl) fun _ m _ => ?_
      dsimp only
      split
      · exact .failAt _ _ m
      · refine .ahead_bind ?_
        split
        · exact .pure _ m
        · rename_i inside eaten
          have opening : m.skipBlanks.Through Written inside :=
            Cursor.through_of_eat? eaten (by simp [Written])
          refine .set_bind ((m.through_skipBlanks blank).trans opening) ?_
          refine .bind (ih.2 inside) fun children m _ => ?_
          split
          · exact .pure _ m
          · exact .failAt _ _ m
    · have others (child : Option Ty) (m : Cursor) :
          (readOthers registry fuel child).TakesOnly Written m := by
        refine .bind (.skipBlanks m blank) fun _ m _ => ?_
        refine .bind (.eat m (by simp [Written])) fun _ m _ => .ite (fun _ => ?_) fun _ => ?_
        · exact .bind (ih.2 m) fun _ m _ => .pure _ m
        · refine .bind (.eat m (by simp [Written])) fun _ m _ => ?_
          exact .ite (fun _ => .pure _ m) fun _ => .fail _ m
      rw [readChildren_succ]
      refine .bind (.skipBlanks c blank) fun _ m _ => ?_
      refine .bind (.eat m (by simp [Written])) fun _ m _ => .ite (fun _ => ?_) fun _ => ?_
      · exact others none m
      · exact .bind (.map (ih.1 m)) fun child m _ => others child m

theorem takesOnly_readHere (registry : Registry) (c : Cursor) :
    (readHere registry).TakesOnly Written c := .get_bind ((takesOnly_both registry _).1 c)

end TypeName

namespace Expression

theorem starts_nameChars (cs : List Char) : nameChars cs <+: cs := by
  fun_induction nameChars cs with
  | case1 => exact List.nil_prefix
  | case2 x rest _ _ ih => exact List.cons_prefix_cons.mpr ⟨rfl, ih⟩
  | case3 => exact List.nil_prefix
  | case4 => exact List.nil_prefix

theorem isIdChar_of_mem_nameChars {cs : List Char} {x : Char} (member : x ∈ nameChars cs) :
    isIdChar x = true := by
  fun_induction nameChars cs with
  | case1 => cases member
  | case2 y rest _ held ih =>
    rcases List.mem_cons.mp member with rfl | inside
    · exact held
    · exact ih inside
  | case3 => cases member
  | case4 => cases member

/-- The characters that variables are made of. -/
def Named (x : Char) : Prop := isIdChar x = true ∨ x = ':'

theorem through_name (c : Cursor) : c.Through Named (c.advance (nameChars c.rest).length) :=
  Cursor.through_advance (starts_nameChars c.rest) fun _ member =>
    .inl (isIdChar_of_mem_nameChars member)

theorem takesOnly_readName (c : Cursor) : readName.TakesOnly Named c :=
  .get_bind (.set_bind (through_name c) (.pure _ _))

theorem current_of_isQualified {c : Cursor} (qualified : isQualified c = true) :
    c.current? = some ':' := by
  simp only [isQualified, Bool.and_eq_true, decide_eq_true_eq] at qualified
  exact qualified.1

theorem takesOnly_readVariable (o : CompileOptions) (name : List Char) (start : Nat) (c : Cursor) :
    (readVariable o name start).TakesOnly Named c := by
  refine .get_bind ?_
  split
  · rename_i qualified
    have colon := current_of_isQualified qualified
    refine .set_bind (Cursor.through_of_current? colon (.inr rfl)) ?_
    refine .bind (takesOnly_readName _) fun _ m _ => .bind (.pure _ m) fun id m _ => ?_
    dsimp only
    split
    · exact .pure _ m
    · exact .failAt _ _ m
  · refine .bind (.pure _ c) fun id m _ => ?_
    dsimp only
    split
    · exact .pure _ m
    · exact .failAt _ _ m

/-! ### Casts -/

/-- What `readShape` finds, as a test of the place it starts at. -/
def looksLikeCast (cursor : Cursor) : Bool :=
  let (name, after) := cursor.skipBlanks.takeWhile TypeName.isNameChar
  let after := after.skipBlanks
  !name.isEmpty &&
    match after.eat? ['<'], after.eat? [')'] with
    | some inside, _ => !inside.isAt fun c => c = '<' || c = '='
    | none, some after => after.skipBlanks.isAt startsValue
    | none, none => false

theorem run_readShape (c : Cursor) : ∃ after, readShape.run c = .ok (looksLikeCast c, after) := by
  have shape : looksLikeCast c = (!(c.skipBlanks.takeWhile TypeName.isNameChar).1.isEmpty &&
      match (TypeName.nameEnd c).skipBlanks.eat? ['<'], (TypeName.nameEnd c).skipBlanks.eat? [')'] with
      | some inside, _ => !inside.isAt fun c => c = '<' || c = '='
      | none, some after => after.skipBlanks.isAt startsValue
      | none, none => false) := rfl
  rw [readShape, run_skipBlanks_bind, run_takeWhile_bind, run_skipBlanks_bind, shape]
  change ∃ after, Parser.run _ (TypeName.nameEnd c).skipBlanks = _
  split
  · rename_i noName
    exact ⟨_, by rw [noName]; rfl⟩
  · rename_i named
    rw [eq_false_of_ne_true named]
    cases opening : (TypeName.nameEnd c).skipBlanks.eat? ['<'] with
    | some inside => exact ⟨inside, run_bind (run_eat_of_some opening)⟩
    | none =>
      rw [run_bind (run_eat_of_none opening), if_neg Bool.false_ne_true]
      cases closing : (TypeName.nameEnd c).skipBlanks.eat? [')'] with
      | some closed => exact ⟨closed, run_bind (run_eat_of_some closing)⟩
      | none => exact ⟨_, run_bind (run_eat_of_none closing)⟩

/-- What `findCast` finds from a place on. -/
def castAt? (registry : Registry) (cursor : Cursor) : Except CompileError (Option (Ty × Cursor)) :=
  match (TypeName.readHere registry).run cursor with
  | .ok (t, after) =>
    match after.skipBlanks.eat? [')'] with
    | some after =>
      if after.skipBlanks.isAt startsValue then .ok (some (t, after.skipBlanks)) else .ok none
    | none => .ok none
  | .error e => if looksLikeCast cursor then .error e else .ok none

private theorem run_findCast_of_read {registry : Registry} {c after : Cursor} {found : Option Ty}
    (read : (readCast? registry).run c = .ok (found, after)) :
    (findCast registry).run c = .ok (found.map (·, after), c) := by
  have probed : (probe (readCast? registry)).run c = .ok ((found, after), c) := by
    simp only [probe, read]
  exact run_bind probed

/-- Reading ahead for a cast finds what stands there and leaves the cursor in place. -/
theorem run_findCast (registry : Registry) (c : Cursor) :
    (findCast registry).run c = (castAt? registry c).map (·, c) := by
  unfold castAt?
  cases typed : (TypeName.readHere registry).run c with
  | error e =>
    have handled : (readCast? registry).run c = (do
        if ← readShape then failAt e.fault e.position else return none : Parser (Option Ty)).run c := by
      simp only [readCast?, recover, run_bind_of_error typed]
    obtain ⟨after, shape⟩ := run_readShape c
    rw [run_bind shape] at handled
    dsimp only
    split
    · rename_i held
      rw [if_pos held] at handled
      have probed : (probe (readCast? registry)).run c = .error e := by
        simp only [probe, handled]
        rfl
      exact run_bind_of_error probed
    · rename_i held
      rw [if_neg held] at handled
      exact run_findCast_of_read handled
  | ok pair =>
    obtain ⟨t, m⟩ := pair
    dsimp only
    cases closing : m.skipBlanks.eat? [')'] with
    | none =>
      have read : (readCast? registry).run c = .ok (none, m.skipBlanks) := by
        simp only [readCast?, recover, run_bind typed, run_skipBlanks_bind,
          run_bind (run_eat_of_none closing)]
        rfl
      exact run_findCast_of_read read
    | some closed =>
      have read : (readCast? registry).run c =
          .ok (if closed.skipBlanks.isAt startsValue then some t else none, closed.skipBlanks) := by
        simp only [readCast?, recover, run_bind typed, run_skipBlanks_bind,
          run_bind (run_eat_of_some closing)]
        rfl
      rw [run_findCast_of_read read]
      dsimp only
      split <;> rfl

theorem run_findCast_eq_ok {registry : Registry} {c c' : Cursor} {found : Option (Ty × Cursor)} :
    (findCast registry).run c = .ok (found, c') ↔ castAt? registry c = .ok found ∧ c = c' := by
  rw [run_findCast]
  cases castAt? registry c with
  | error e => exact ⟨nofun, fun ⟨impossible, _⟩ => nomatch impossible⟩
  | ok found' =>
    change (Except.ok (found', c) : Except CompileError (Option (Ty × Cursor) × Cursor)) = _ ↔ _
    simp

/-- A cast is made of its type, a closing parenthesis and blanks around it. -/
theorem parts_of_castAt? {registry : Registry} {c after : Cursor} {t : Ty}
    (cast : castAt? registry c = .ok (some (t, after))) :
    ∃ m closed, c.Through TypeName.Written m ∧ m.skipBlanks.eat? [')'] = some closed ∧
      after = closed.skipBlanks := by
  unfold castAt? at cast
  split at cast
  · rename_i t' m run
    have read := TypeName.takesOnly_readHere registry c t' m run
    split at cast
    · rename_i closed eaten
      split at cast
      · cases cast
        exact ⟨m, closed, read, eaten, rfl⟩
      · cases cast
    · cases cast
  · split at cast <;> cases cast

theorem onward_of_castAt? {registry : Registry} {c after : Cursor} {t : Ty}
    (cast : castAt? registry c = .ok (some (t, after))) : c.Onward after := by
  obtain ⟨m, closed, read, eaten, rfl⟩ := parts_of_castAt? cast
  have inside := m.onward_skipBlanks.trans (Cursor.onward_of_eat? eaten)
  exact read.onward.trans (inside.trans closed.onward_skipBlanks)

end Expression
end Immediate
