import Immediate.Eval.Expression
import Immediate.Proofs.Source.Grammar
import Immediate.Source.PathText
/-! Reading keeps to the boundaries between characters. Every place that a reader comes to, tries or
blames lies on the way through the text, also where the cursor is moved by bytes, so that the text
can be sliced there. Readers that fail keep to it as well. -/
namespace Immediate

open Immediate.Parser

/-! ### Slices -/

namespace Text

/-- The text between two byte offsets of a text; nothing unless both are boundaries between
characters and the second is not before the first. -/
def slice? (s : String) (start stop : Nat) : Option String := do
  let p ← s.pos? ⟨start⟩
  let q ← s.pos? ⟨stop⟩
  return (← s.slice? p q).copy

theorem byteCount_append (cs others : List Char) :
    byteCount (cs ++ others) = byteCount cs + byteCount others := by
  rw [byteCount, List.foldl_append, Cursor.foldl_utf8Size]
  rfl

theorem utf8ByteSize_ofList (cs : List Char) : (String.ofList cs).utf8ByteSize = byteCount cs := by
  induction cs with
  | nil => rfl
  | cons x rest ih =>
    rw [← List.singleton_append, String.ofList_append, String.utf8ByteSize_append, ih,
      List.singleton_append, Cursor.byteCount_cons]
    simp

theorem utf8ByteSize_eq (s : String) : s.utf8ByteSize = byteCount s.toList := by
  rw [← utf8ByteSize_ofList, String.ofList_toList]

theorem rawEndPos_ofList (cs : List Char) : (String.ofList cs).rawEndPos = ⟨byteCount cs⟩ :=
  congrArg String.Pos.Raw.mk (utf8ByteSize_ofList cs)

section
variable {s : String} {before behind : List Char} (whole : s.toList = before ++ behind)
include whole

theorem eq_ofList_append : s = String.ofList before ++ String.ofList behind := by
  rw [← String.ofList_append, ← whole, String.ofList_toList]

theorem isValid_of_append : (⟨byteCount before⟩ : String.Pos.Raw).IsValid s :=
  String.Pos.Raw.isValid_iff_exists_append.mpr
    ⟨_, _, eq_ofList_append whole, (rawEndPos_ofList before).symm⟩

/-- Between two parts of a text is a position, which splits it into them. -/
theorem exists_pos_of_append :
    ∃ p, s.pos? ⟨byteCount before⟩ = some p ∧
      p.Splits (String.ofList before) (String.ofList behind) := by
  have valid := isValid_of_append whole
  refine ⟨s.pos _ valid, ?_, eq_ofList_append whole, (rawEndPos_ofList before).symm⟩
  simp [String.pos?, String.Slice.pos?, String.pos, valid]

end

/-- Any part of a text can be cut out of it. -/
theorem slice?_of_append {s : String} {before text behind : List Char}
    (whole : s.toList = before ++ text ++ behind) :
    slice? s (byteCount before) (byteCount (before ++ text)) = some (String.ofList text) := by
  obtain ⟨p, start, front⟩ := exists_pos_of_append (whole.trans (List.append_assoc ..))
  obtain ⟨q, stop, back⟩ := exists_pos_of_append whole
  rw [String.ofList_append] at front back
  obtain ⟨ordered, cut⟩ := String.copy_slice_eq_iff_splits.mpr ⟨_, _, front, back⟩
  rw [slice?, start, stop, ← cut]
  simp only [Option.bind_eq_bind, Option.bind_some, String.slice?, dif_pos ordered]
  rfl

/-- No slice begins or ends inside a character. -/
example : slice? "añb" 1 3 = some "ñ" ∧ slice? "añb" 1 2 = none := by decide +kernel

end Text

/-! ### Places on the way through a text -/

namespace Cursor

/-- Some characters lie between a place and one behind it. -/
theorem Onward.between {c later : Cursor} (onward : c.Onward later) :
    ∃ text, c.rest = text ++ later.rest ∧ later.offset = c.offset + Text.byteCount text := by
  obtain ⟨count, rfl⟩ := onward
  exact ⟨_, (List.take_append_drop count c.rest).symm, c.offset_advance count⟩

/-- Before a place that is reached from the start lie the characters that its offset counts. -/
theorem Onward.before {s : String} {c : Cursor} (reached : (start s).Onward c) :
    ∃ before, s.toList = before ++ c.rest ∧ c.offset = Text.byteCount before := by
  obtain ⟨before, whole, offset⟩ := reached.between
  exact ⟨before, whole, offset.trans (Nat.zero_add _)⟩

theorem Onward.isValid {s : String} {c : Cursor} (reached : (start s).Onward c) :
    (⟨c.offset⟩ : String.Pos.Raw).IsValid s := by
  obtain ⟨before, whole, offset⟩ := reached.before
  rw [offset]
  exact Text.isValid_of_append whole

/-- The characters between two places can be sliced there. -/
theorem Onward.slice {s : String} {c later : Cursor} (reached : (start s).Onward c)
    (onward : c.Onward later) :
    Text.slice? s c.offset later.offset = some (String.ofList (later.since c)) := by
  obtain ⟨before, whole, offset⟩ := reached.before
  obtain ⟨text, rest, further⟩ := onward.between
  have since : later.since c = text := by
    rw [since, rest, List.length_append, Nat.add_sub_cancel_right, List.take_left]
  rw [rest, ← List.append_assoc] at whole
  rw [since, further, offset, ← Text.byteCount_append]
  exact Text.slice?_of_append whole

/-- All that is left at a place can be sliced there. -/
theorem Onward.slice_rest {s : String} {c : Cursor} (reached : (start s).Onward c) :
    Text.slice? s c.offset s.utf8ByteSize = some (String.ofList c.rest) := by
  obtain ⟨before, whole, offset⟩ := reached.before
  have sliced := Text.slice?_of_append (whole.trans (List.append_nil _).symm)
  rwa [← whole, ← Text.utf8ByteSize_eq, ← offset] at sliced

end Cursor

/-! ### Readers that keep to the way -/

namespace Parser

variable {α β : Type} {p : Parser α} {origin c m : Cursor} {a : α}

/-- What a reader does at a place keeps to the way from an origin, whether it succeeds or fails. -/
structure Within (origin : Cursor) (p : Parser α) (c : Cursor) : Prop where
  /-- What it moves over or cuts out leads onward, from a place on the way. -/
  spans : ∀ x ∈ p.spans c, origin.Onward x.start ∧ x.start.Onward x.stop
  /-- It ends where it was or where one of its moves did. -/
  reached : ∀ a m, p.run c = .ok (a, m) → m = c ∨ ∃ x ∈ p.spans c, x.stop = m
  /-- An error blames a place on the way. -/
  blames : ∀ e, p.run c = .error e → ∃ m, origin.Onward m ∧ e.position = m.offset

namespace Within

theorem onward (within : p.Within origin c) (here : origin.Onward c)
    (ran : p.run c = .ok (a, m)) : origin.Onward m := by
  rcases within.reached a m ran with rfl | ⟨x, member, rfl⟩
  · exact here
  · obtain ⟨start, onward⟩ := within.spans x member
    exact start.trans onward

/-- The way from a place on is part of the way to it. -/
theorem weaken (here : origin.Onward m) (within : p.Within m c) : p.Within origin c where
  spans x member := ⟨here.trans (within.spans x member).1, (within.spans x member).2⟩
  reached := within.reached
  blames e failed := by
    obtain ⟨k, further, position⟩ := within.blames e failed
    exact ⟨k, here.trans further, position⟩

theorem pure (a : α) : (Pure.pure a : Parser α).Within origin c where
  spans := nofun
  reached _ _ ran := .inl (run_pure_eq_ok.mp ran).2.symm
  blames := nofun

theorem failAt (fault : Fault) (there : origin.Onward m) :
    (Parser.failAt fault m.offset : Parser α).Within origin c where
  spans := nofun
  reached := nofun
  blames e failed := by
    cases failed
    exact ⟨m, there, rfl⟩

theorem fail (fault : Fault) (here : origin.Onward c) :
    (Parser.fail fault : Parser α).Within origin c where
  spans := nofun
  reached := nofun
  blames e failed := by
    cases failed
    exact ⟨c, here, rfl⟩

theorem bind {next : α → Parser β} (here : origin.Onward c) (first : p.Within origin c)
    (second : ∀ a m, p.run c = .ok (a, m) → origin.Onward m → (next a).Within origin m) :
    (p >>= next).Within origin c := by
  cases ran : p.run c with
  | error e =>
    -- What would follow is not run, so nothing is added to what was moved over.
    have spans : (p >>= next).spans c = p.spans c := by
      change p.spans c ++ _ = _
      rw [ran]
      exact List.append_nil _
    refine ⟨fun x member => first.spans x (spans ▸ member), fun b k run => ?_, fun e' run => ?_⟩
    · rw [run_bind_of_error ran] at run
      cases run
    · rw [run_bind_of_error ran] at run
      exact first.blames e' (ran.trans (by cases run; rfl))
  | ok pair =>
    obtain ⟨a, m⟩ := pair
    have spans : (p >>= next).spans c = p.spans c ++ (next a).spans m := by
      change p.spans c ++ _ = _
      rw [ran]
    have behind := second a m ran (first.onward here ran)
    refine ⟨fun x member => ?_, fun b k run => ?_, fun e run => ?_⟩
    · rw [spans] at member
      exact (List.mem_append.mp member).elim (first.spans x) (behind.spans x)
    · rw [run_bind ran] at run
      rw [spans]
      rcases behind.reached b k run with rfl | ⟨x, member, stop⟩
      · refine (first.reached a k ran).imp_right ?_
        rintro ⟨x, member, stop⟩
        exact ⟨x, List.mem_append_left _ member, stop⟩
      · exact .inr ⟨x, List.mem_append_right _ member, stop⟩
    · rw [run_bind ran] at run
      exact behind.blames e run

/-- A step that is recorded as one stretch. -/
theorem step {start stop : Cursor} (ran : p.run c = .ok (a, m))
    (recorded : p.spans c = [⟨start, stop⟩]) (there : origin.Onward start)
    (onward : start.Onward stop) (ends : m = c ∨ stop = m) : p.Within origin c := by
  refine ⟨fun x member => ?_, fun b k run => ?_, fun e run => ?_⟩
  · rw [recorded] at member
    cases List.mem_singleton.mp member
    exact ⟨there, onward⟩
  · cases ran.symm.trans run
    rw [recorded]
    exact ends.imp_right fun stop => ⟨_, List.mem_singleton_self _, stop⟩
  · cases ran.symm.trans run

theorem get_bind {next : Cursor → Parser β} (second : (next c).Within origin c) :
    (get >>= next).Within origin c := ⟨second.spans, second.reached, second.blames⟩

theorem set_bind {next : PUnit → Parser β} (here : origin.Onward c) (onward : c.Onward m)
    (second : origin.Onward m → (next ⟨⟩).Within origin m) : (set m >>= next).Within origin c := by
  refine .bind here (.step rfl rfl here onward (.inr rfl)) fun _ k ran here => ?_
  cases ran
  exact second here

theorem modify_bind {f : Cursor → Cursor} {next : PUnit → Parser β} (here : origin.Onward c)
    (onward : c.Onward (f c)) (second : origin.Onward (f c) → (next ⟨⟩).Within origin (f c)) :
    (modify f >>= next).Within origin c := by
  refine .bind here (.step rfl rfl here onward (.inr rfl)) fun _ k ran here => ?_
  cases ran
  exact second here

theorem ahead_bind {f : Cursor → Cursor} {next : Cursor → Parser β} (here : origin.Onward c)
    (onward : c.Onward (f c)) (second : (next (f c)).Within origin c) :
    (ahead f >>= next).Within origin c := by
  refine .bind here (.step rfl rfl here onward (.inl rfl)) fun _ k ran _ => ?_
  cases ran
  exact second

theorem since_bind {start : Cursor} {next : List Char → Parser β} (there : origin.Onward start)
    (onward : start.Onward c) (second : (next (c.since start)).Within origin c) :
    (since start >>= next).Within origin c := by
  refine .bind (there.trans onward) (.step rfl rfl there onward (.inl rfl)) fun _ k ran _ => ?_
  cases ran
  exact second

theorem ite {condition : Prop} [Decidable condition] {q : Parser α}
    (holds : condition → p.Within origin c) (fails : ¬condition → q.Within origin c) :
    (if condition then p else q).Within origin c := by
  split
  · exact holds ‹_›
  · exact fails ‹_›

theorem probe (ahead : p.Within origin c) : (Parser.probe p).Within origin c := by
  cases ran : p.run c with
  | ok pair =>
    have run : (Parser.probe p).run c = .ok (pair, c) := by simp only [Parser.probe, ran]
    refine ⟨ahead.spans, fun a m held => ?_, fun e failed => ?_⟩
    · cases run.symm.trans held
      exact .inl rfl
    · cases run.symm.trans failed
  | error e =>
    have run : (Parser.probe p).run c = .error e := by simp only [Parser.probe, ran]
    refine ⟨ahead.spans, fun a m held => ?_, fun e' failed => ?_⟩
    · cases run.symm.trans held
    · cases run.symm.trans failed
      exact ahead.blames e ran

/-- After an error, which blames a place on the way, reading goes on where it began. -/
theorem recover {handle : CompileError → Parser α} (first : p.Within origin c)
    (second : ∀ fault m, origin.Onward m → (handle ⟨fault, m.offset⟩).Within origin c) :
    (Parser.recover p handle).Within origin c := by
  cases ran : p.run c with
  | ok pair =>
    have run : (Parser.recover p handle).run c = p.run c := by simp only [Parser.recover, ran]
    have spans : (Parser.recover p handle).spans c = p.spans c := by
      simp only [Parser.recover, ran, List.append_nil]
    exact ⟨spans ▸ first.spans, by rw [run, spans]; exact first.reached, run ▸ first.blames⟩
  | error e =>
    -- What was moved over before the error is still told, and nothing behind it is reached.
    obtain ⟨blamed, there, position⟩ := first.blames e ran
    obtain ⟨fault, offset⟩ := e
    cases position
    have other := second fault blamed there
    have run : (Parser.recover p handle).run c = (handle ⟨fault, blamed.offset⟩).run c := by
      simp only [Parser.recover, ran]
    have spans : (Parser.recover p handle).spans c =
        p.spans c ++ (handle ⟨fault, blamed.offset⟩).spans c := by
      simp only [Parser.recover, ran]
    refine ⟨fun x member => ?_, fun a m held => ?_, run ▸ other.blames⟩
    · rw [spans] at member
      exact (List.mem_append.mp member).elim (first.spans x) (other.spans x)
    · rw [spans]
      refine (other.reached a m (run ▸ held)).imp_right ?_
      rintro ⟨x, member, stop⟩
      exact ⟨x, List.mem_append_right _ member, stop⟩

section
variable (here : origin.Onward c)
include here

theorem map {f : α → β} (first : p.Within origin c) : (f <$> p).Within origin c := by
  rw [map_eq_pure_bind]
  exact .bind here first fun _ _ _ _ => .pure _

theorem skipBlanks_bind {next : Unit → Parser β}
    (second : origin.Onward c.skipBlanks → (next ()).Within origin c.skipBlanks) :
    (Parser.skipBlanks >>= next).Within origin c :=
  .modify_bind here c.onward_skipBlanks second

theorem takeWhile (class_ : Char → Bool) : (Parser.takeWhile class_).Within origin c :=
  .get_bind (.set_bind here (c.onward_takeWhile class_) fun _ => .pure _)

theorem eat (expected : List Char) : (Parser.eat expected).Within origin c := by
  refine .get_bind ?_
  split
  · rename_i after eaten
    exact .set_bind here (Cursor.onward_of_eat? eaten) fun _ => .pure _
  · exact .pure false

theorem expect (x : Char) (what : Expected) : (Parser.expect x what).Within origin c := by
  refine .skipBlanks_bind here fun here => .bind here (.eat here [x]) fun eaten m _ here => ?_
  exact .ite (fun _ => .pure _) fun _ => .fail _ here

theorem finish : Parser.finish.Within origin c := by
  refine .skipBlanks_bind here fun here => .get_bind ?_
  split
  · exact .pure _
  · exact .fail _ here

theorem whole (within : p.Within origin c) : p.whole.Within origin c :=
  .bind here within fun _ _ _ here => .bind here (.finish here) fun _ _ _ _ => .pure _

end

end Within
end Parser

/-! ### Numerals -/

namespace Numeral

section
variable {origin c : Cursor} (here : origin.Onward c)
include here

theorem within_readSign : readSign.Within origin c := by
  refine .bind here (.eat here ['-']) fun minus m _ here => ?_
  refine .ite (fun _ => .pure true) fun _ => ?_
  refine .bind here ?_ fun _ m _ here => .pure false
  exact .bind here (.eat here ['+']) fun _ _ _ _ => .pure ()

theorem within_readRadix : readRadix.Within origin c := by
  rw [readRadix_eq]
  exact .get_bind (.set_bind here (c.onward_advance _) fun _ => .pure _)

theorem within_readFraction (radix : Nat) : (readFraction radix).Within origin c := by
  refine .get_bind (.ite (fun _ => .pure none) fun _ => ?_)
  refine .set_bind here (c.onward_advance 1) fun here => ?_
  refine .bind here (.takeWhile here _) fun fraction m _ here => ?_
  refine .get_bind (.ite (fun _ => ?_) fun _ => .pure _)
  exact .bind here (.fail _ here) fun _ _ _ _ => .pure _

theorem within_readSuffix (radix : Nat) : (readSuffix radix).Within origin c := by
  refine .get_bind ?_
  split
  · exact .set_bind here (c.onward_advance 1) fun _ => .pure _
  · exact .pure none

/-- The text of a numeral is cut out from where it began, so that place is taken as the origin. -/
theorem within_read : read.Within origin c := by
  refine .weaken here (.get_bind ?_)
  have here := Cursor.Onward.refl c
  refine .bind here (within_readSign here) fun negative m _ here => ?_
  refine .bind here (within_readRadix here) fun radix m _ here => ?_
  refine .bind here (.takeWhile here _) fun whole m _ here => ?_
  refine .bind here (within_readFraction here radix) fun fraction? m _ before => ?_
  refine .ite (fun _ => .bind before (.fail _ before) fun _ _ impossible _ => nomatch impossible)
    fun _ => .get_bind ?_
  refine .bind before (within_readSuffix before radix) fun suffix? m _ here => ?_
  split
  · exact .pure _
  · exact .pure _
  · exact .failAt _ before
  · exact .pure _
  · refine .ite (fun _ => .since_bind (.refl c) here ?_) fun _ => .pure _
    exact .bind here (.failAt _ (.refl c)) fun _ _ impossible _ => nomatch impossible

end
end Numeral

/-! ### Quoted literals -/

namespace Quoted

section
variable {origin start c : Cursor} (started : origin.Onward start) (here : origin.Onward c)
include started here

/-- Four digits are moved over by bytes, and what stands in four bytes are four characters. -/
theorem within_readHexUnit : (readHexUnit start.offset).Within origin c := by
  rw [readHexUnit_eq]
  refine .get_bind (.ite (fun _ => ?_) fun _ => .failAt _ started)
  exact .set_bind here (c.onward_advance 4) fun _ => .pure _

omit started in
theorem within_readEscape : readEscape.Within origin c := by
  refine .get_bind (.modify_bind here (c.onward_advance 1) fun inside => .get_bind ?_)
  split
  · exact .failAt _ here
  · refine .set_bind inside (Cursor.onward_advance _ 1) fun behind => .ite (fun _ => ?_) fun _ => ?_
    · exact within_readHexUnit here behind
    · split
      · exact .pure _
      · exact .failAt _ here

theorem within_readUnits (fuel : Nat) : (readUnits start.offset fuel).Within origin c := by
  induction fuel generalizing c with
  | zero => exact .failAt _ started
  | succ fuel ih =>
    refine .get_bind ?_
    split
    · exact .failAt _ started
    · refine .ite (fun _ => .set_bind here (c.onward_advance 1) fun _ => .pure _) fun _ => ?_
      refine .ite (fun _ => ?_) fun _ => .set_bind here (c.onward_advance 1) fun here => ?_
      · refine .bind here (within_readEscape here) fun u m _ here => ?_
        exact .bind here (ih here) fun _ _ _ _ => .pure _
      · exact .bind here (ih here) fun _ _ _ _ => .pure _

omit started in
theorem within_readText : readText.Within origin c := by
  refine .get_bind (.set_bind here (c.onward_advance 1) fun inside => ?_)
  refine .bind inside (within_readUnits here inside _) fun units m _ _ => ?_
  split
  · exact .pure _
  · exact .failAt _ here

theorem within_readUnit : (readUnit start.offset).Within origin c := by
  refine .get_bind ?_
  split
  · exact .failAt _ started
  · refine .ite (fun _ => within_readEscape here) fun _ => ?_
    split
    · refine .ite (fun _ => ?_) fun _ => .set_bind here (c.onward_advance 1) fun _ => .pure _
      exact .bind here (.failAt _ started) fun _ _ impossible _ => nomatch impossible
    · exact .failAt _ started

omit started in
theorem within_readChar : readChar.Within origin c := by
  refine .get_bind (.set_bind here (c.onward_advance 1) fun inside => ?_)
  refine .bind inside (within_readUnit here inside) fun unit m _ behind => ?_
  refine .bind behind (.eat behind ['\'']) fun closed m _ _ => ?_
  exact .ite (fun _ => .pure _) fun _ => .failAt _ here

end
end Quoted

/-! ### Types -/

namespace TypeName

variable {origin c : Cursor}

theorem within_both (registry : Registry) (fuel : Nat) :
    (∀ {c}, origin.Onward c → (read registry fuel).Within origin c) ∧
      ∀ {c}, origin.Onward c → (readChildren registry fuel).Within origin c := by
  induction fuel with
  | zero => exact ⟨fun here => .fail _ here, fun here => .fail _ here⟩
  | succ fuel ih =>
    refine ⟨fun {c} here => ?_, fun {c} here => ?_⟩
    · refine .skipBlanks_bind here fun start => .get_bind ?_
      refine .bind start (.takeWhile start _) fun name m _ here => ?_
      dsimp only
      split
      · exact .failAt _ start
      · refine .ahead_bind here m.onward_skipBlanks ?_
        split
        · exact .pure _
        · rename_i inside eaten
          have opening := m.onward_skipBlanks.trans (Cursor.onward_of_eat? eaten)
          refine .set_bind here opening fun here => ?_
          refine .bind here (ih.2 here) fun children m _ _ => ?_
          split
          · exact .pure _
          · exact .failAt _ start
    · have others (child : Option Ty) {m : Cursor} (here : origin.Onward m) :
          (readOthers registry fuel child).Within origin m := by
        refine .skipBlanks_bind here fun here => .bind here (.eat here [',']) fun _ m _ here => ?_
        refine .ite (fun _ => .bind here (ih.2 here) fun _ _ _ _ => .pure _) fun _ => ?_
        refine .bind here (.eat here ['>']) fun _ m _ here => ?_
        exact .ite (fun _ => .pure _) fun _ => .fail _ here
      rw [readChildren_succ]
      refine .skipBlanks_bind here fun here => .bind here (.eat here ['?']) fun _ m _ here => ?_
      refine .ite (fun _ => others none here) fun _ => ?_
      exact .bind here (.map here (ih.1 here)) fun child m _ here => others child here

theorem within_readHere (registry : Registry) (here : origin.Onward c) :
    (readHere registry).Within origin c := .get_bind ((within_both registry _).1 here)

end TypeName

/-! ### Expressions -/

namespace Expression

section
variable {origin c : Cursor} (here : origin.Onward c)
include here

theorem within_readShape : readShape.Within origin c := by
  refine .skipBlanks_bind here fun here => .bind here (.takeWhile here _) fun name m _ here => ?_
  refine .skipBlanks_bind here fun here => .ite (fun _ => .pure _) fun _ => ?_
  refine .bind here (.eat here ['<']) fun opened k _ here => ?_
  refine .ite (fun _ => .get_bind (.pure _)) fun _ => ?_
  refine .bind here (.eat here [')']) fun closed k _ here => ?_
  exact .ite (fun _ => .ahead_bind here k.onward_skipBlanks (.pure _)) fun _ => .pure _

theorem within_readCast? (registry : Registry) : (readCast? registry).Within origin c := by
  refine .recover ?_ fun fault m there => ?_
  · refine .bind here (TypeName.within_readHere registry here) fun t m _ here => ?_
    refine .skipBlanks_bind here fun here => .bind here (.eat here [')']) fun closed k _ here => ?_
    exact .ite (fun _ => .skipBlanks_bind here fun _ => .get_bind (.pure _)) fun _ => .pure _
  · refine .bind here (within_readShape here) fun shape m _ _ => ?_
    exact .ite (fun _ => .failAt _ there) fun _ => .pure _

theorem within_findCast (registry : Registry) : (findCast registry).Within origin c :=
  .bind here (.probe (within_readCast? here registry)) fun _ _ _ _ => .pure _

theorem within_readName : readName.Within origin c :=
  .get_bind (.set_bind here (c.onward_advance _) fun _ => .pure _)

theorem within_readVariable (o : CompileOptions) (name : List Char) {start : Cursor}
    (started : origin.Onward start) : (readVariable o name start.offset).Within origin c := by
  refine .get_bind (.ite (fun _ => ?_) fun _ => .bind here (.pure _) fun id? m _ _ => ?_)
  · refine .set_bind here (c.onward_advance 1) fun here => ?_
    refine .bind here (within_readName here) fun path m _ here => ?_
    refine .bind here (.pure _) fun id? m _ _ => ?_
    dsimp only
    split
    · exact .pure _
    · exact .failAt _ started
  · dsimp only
    split
    · exact .pure _
    · exact .failAt _ started

end

/-- Readers with this fuel keep to the way. -/
structure Confined (o : CompileOptions) (fuel : Nat) : Prop where
  term {origin c} (stop : Bool) : origin.Onward c → (readTerm o stop fuel).Within origin c
  operations {origin c} (stop : Bool) :
    origin.Onward c → (readOperations o stop fuel).Within origin c
  operand {origin c} : origin.Onward c → (readOperand o fuel).Within origin c
  indices {origin c} : origin.Onward c → (readIndices o fuel).Within origin c
  index {origin c} : origin.Onward c → (readIndex? o fuel).Within origin c
  value {origin c} : origin.Onward c → (readValue o fuel).Within origin c
  paren {origin c} : origin.Onward c → (readParen o fuel).Within origin c
  braces {origin c} : origin.Onward c → (readBraces o fuel).Within origin c
  elements {origin c} : origin.Onward c → (readElements o fuel).Within origin c
  named {origin c} : origin.Onward c → (readNamed o fuel).Within origin c
  arguments {origin opening c} : origin.Onward opening → origin.Onward c →
    (readArguments o opening.offset fuel).Within origin c

namespace Confined

variable {o : CompileOptions} {fuel : Nat} (below : Confined o fuel) {origin c : Cursor}
  (here : origin.Onward c)
include below here

theorem succ_term (stop : Bool) : (readTerm o stop (fuel + 1)).Within origin c := by
  refine .bind here (below.operand here) fun first m _ here => ?_
  exact .bind here (below.operations stop here) fun _ _ _ _ => .pure _

theorem succ_operations (stop : Bool) : (readOperations o stop (fuel + 1)).Within origin c := by
  rw [readOperations_succ]
  refine .skipBlanks_bind here fun here => .get_bind ?_
  split
  · exact .pure _
  · refine .set_bind here (Cursor.onward_advance _ _) fun here => ?_
    refine .bind here (below.operand here) fun operand m _ here => ?_
    exact .bind here (below.operations stop here) fun _ _ _ _ => .pure _

theorem succ_operand : (readOperand o (fuel + 1)).Within origin c := by
  refine .bind here (below.value here) fun value m _ here => ?_
  exact .bind here (below.indices here) fun _ _ _ _ => .pure _

theorem succ_indices : (readIndices o (fuel + 1)).Within origin c := by
  refine .bind here (below.index here) fun index? m _ here => ?_
  cases index? with
  | none => exact .pure _
  | some index => exact .bind here (below.indices here) fun _ _ _ _ => .pure _

theorem succ_index : (readIndex? o (fuel + 1)).Within origin c := by
  refine .skipBlanks_bind here fun here => .bind here (.eat here ['[']) fun opened m _ here => ?_
  refine .ite (fun _ => .pure none) fun _ => ?_
  refine .skipBlanks_bind here fun here => .bind here (.eat here [']']) fun closed m _ here => ?_
  refine .ite (fun _ => .pure _) fun _ => ?_
  refine .bind here (below.term true here) fun first m _ here => ?_
  have closed (index : Accessor) {k : Cursor} (here : origin.Onward k) :
      (do
        Parser.expect ']' .bracket
        return some index : Parser (Option Accessor)).Within origin k :=
    .bind here (.expect here _ _) fun _ _ _ _ => .pure _
  refine .skipBlanks_bind here fun here => ?_
  refine .bind here (.eat here ['.', '.']) fun range m _ here => ?_
  refine .ite (fun _ => ?_) fun _ => ?_
  · refine .bind here (below.term true here) fun last m _ here => ?_
    exact .bind here (.pure _) fun index m _ here => closed index here
  · refine .bind here (.eat here ['?']) fun lenient m _ here => ?_
    refine .ite (fun _ => ?_) fun _ => ?_
    · exact .bind here (.pure _) fun index m _ here => closed index here
    · exact .bind here (.pure _) fun index m _ here => closed index here

theorem succ_value : (readValue o (fuel + 1)).Within origin c := by
  have constant {p : Parser Value} {m : Cursor} (here : origin.Onward m)
      (literal : p.Within origin m) :
      (do return [.constant (some (← p))] : Parser Code).Within origin m :=
    .bind here literal fun _ _ _ _ => .pure _
  refine .skipBlanks_bind here fun here => .get_bind ?_
  split
  · exact .fail _ here
  · refine .ite (fun _ => constant here (Numeral.within_read here)) fun _ => ?_
    refine .ite (fun _ => .set_bind here (Cursor.onward_advance _ 1) fun here => ?_) fun _ => ?_
    · exact .bind here (below.value here) fun _ _ _ _ => .pure _
    refine .ite (fun _ => below.paren here) fun _ => ?_
    refine .ite (fun _ => below.braces here) fun _ => ?_
    refine .ite (fun _ => constant here (Quoted.within_readText here)) fun _ => ?_
    refine .ite (fun _ => constant here (Quoted.within_readChar here)) fun _ => ?_
    refine .ite (fun _ => constant here (Numeral.within_read here)) fun _ => ?_
    exact .ite (fun _ => below.named here) fun _ => .fail _ here

/-- The value of a cast is read from the place that was found ahead. -/
theorem succ_paren : (readParen o (fuel + 1)).Within origin c := by
  have opening := here
  refine .get_bind (.modify_bind here (c.onward_advance 1) fun here => ?_)
  refine .bind here (within_findCast here o.registry) fun cast? m found here => ?_
  obtain ⟨cast, rfl⟩ := run_findCast_eq_ok.mp found
  cases cast? with
  | some pair =>
    refine .set_bind here (onward_of_castAt? cast) fun here => ?_
    exact .bind here (below.value here) fun _ _ _ _ => .pure _
  | none =>
    refine .bind here (below.term false here) fun term m _ here => ?_
    refine .skipBlanks_bind here fun here => .bind here (.eat here [')']) fun closed m _ _ => ?_
    exact .ite (fun _ => .pure _) fun _ => .failAt _ opening

theorem succ_braces : (readBraces o (fuel + 1)).Within origin c := by
  refine .modify_bind here (c.onward_advance 1) fun here => .skipBlanks_bind here fun here => ?_
  refine .bind here (.eat here ['\x7d']) fun closed m _ here => .ite (fun _ => .pure _) fun _ => ?_
  refine .bind here (below.term false here) fun first m _ here => ?_
  refine .skipBlanks_bind here fun here => ?_
  refine .bind here (.eat here [':']) fun entry m _ here => .ite (fun _ => ?_) fun _ => ?_
  · refine .bind here (below.term false here) fun value m _ here => ?_
    exact .bind here (.expect here _ _) fun _ _ _ _ => .pure _
  · refine .bind here (below.elements here) fun rest m _ here => ?_
    exact .bind here (.expect here _ _) fun _ _ _ _ => .pure _

theorem succ_elements : (readElements o (fuel + 1)).Within origin c := by
  refine .bind here (.eat here [',']) fun more m _ here => .ite (fun _ => ?_) fun _ => .pure _
  refine .bind here (below.term false here) fun element m _ here => ?_
  refine .skipBlanks_bind here fun here => ?_
  exact .bind here (below.elements here) fun _ _ _ _ => .pure _

theorem succ_arguments {opening : Cursor} (opened : origin.Onward opening) :
    (readArguments o opening.offset (fuel + 1)).Within origin c := by
  refine .bind here (below.term false here) fun arg m _ here => .skipBlanks_bind here fun here => ?_
  refine .bind here (.eat here [',']) fun more m _ here => .ite (fun _ => ?_) fun _ => ?_
  · exact .bind here (below.arguments opened here) fun _ _ _ _ => .pure _
  · refine .bind here (.eat here [')']) fun closed m _ _ => ?_
    exact .ite (fun _ => .pure _) fun _ => .failAt _ opened

theorem succ_named : (readNamed o (fuel + 1)).Within origin c := by
  have start := here
  refine .get_bind (.bind here (within_readName here) fun name m _ opening => .get_bind ?_)
  refine .ite (fun _ => ?_) fun _ => .ite (fun _ => .pure _) fun _ => ?_
  · refine .set_bind opening (m.onward_advance 1) fun here => .skipBlanks_bind here fun here => ?_
    refine .bind here (.eat here [')']) fun closed m _ here => ?_
    refine .ite (fun _ => .bind here (.pure _) fun args m _ _ => ?_)
      fun _ => .bind here (below.arguments opening here) fun args m _ _ => ?_
    all_goals
      dsimp only
      split
      · exact .pure _
      · exact .failAt _ start
  · exact .bind opening (within_readVariable opening o name start) fun _ _ _ _ => .pure _

end Confined

/-- The readers keep to the way, whatever fuel they are given. -/
theorem confined (o : CompileOptions) (fuel : Nat) : Confined o fuel := by
  induction fuel with
  | zero =>
    exact ⟨fun _ here => .fail _ here, fun _ here => .fail _ here, fun here => .fail _ here,
      fun here => .fail _ here, fun here => .fail _ here, fun here => .fail _ here,
      fun here => .fail _ here, fun here => .fail _ here, fun here => .fail _ here,
      fun here => .fail _ here, fun _ here => .fail _ here⟩
  | succ fuel below =>
    exact ⟨fun stop here => below.succ_term here stop,
      fun stop here => below.succ_operations here stop, below.succ_operand, below.succ_indices, below.succ_index, below.succ_value, below.succ_paren,
      below.succ_braces, below.succ_elements, below.succ_named,
      fun opened here => below.succ_arguments here opened⟩

end Expression

/-! ### Paths -/

namespace Path

open Expression

variable {origin c : Cursor}

theorem within_readBase (o : CompileOptions) (fuel : Nat) (here : origin.Onward c) :
    (readBase o fuel).Within origin c := by
  induction fuel generalizing c with
  | zero => exact .fail _ here
  | succ fuel ih =>
    refine .skipBlanks_bind here fun start => .get_bind (.get_bind ?_)
    refine .ite (fun _ => .bind start (.fail _ start) fun _ _ impossible _ => nomatch impossible)
      fun _ => ?_
    refine .bind start (within_readName start) fun name m _ here => ?_
    refine .bind here (.eat here ['(']) fun wrapped m _ here => .ite (fun _ => ?_) fun _ => ?_
    · split
      · exact .failAt _ start
      · refine .bind here (ih here) fun pair m _ here => .skipBlanks_bind here fun here => ?_
        refine .bind here (.eat here [')']) fun closed m _ _ => ?_
        exact .ite (fun _ => .pure _) fun _ => .failAt _ start
    · exact .bind here (within_readVariable here o name start) fun _ _ _ _ => .pure _

theorem within_readHere (o : CompileOptions) (fuel : Nat) (here : origin.Onward c) :
    (readHere o fuel).Within origin c := by
  refine .bind here (within_readBase o fuel here) fun pair m _ here => ?_
  exact .bind here ((confined o fuel).indices here) fun _ _ _ _ => .pure _

end Path

/-! ### Whole texts -/

namespace Parser

variable {α : Type} {p : Parser α} {s : String}

/-- An error of a whole text blames a boundary in it. -/
theorem Within.isValid_of_readAll (within : p.Within (.start s) (.start s)) {e : CompileError}
    (failed : p.readAll s = .error e) :
    e.position ≤ s.utf8ByteSize ∧ (⟨e.position⟩ : String.Pos.Raw).IsValid s := by
  have failed : p.whole.run (.start s) = .error e := by
    rcases Outcome.bind_eq_error.mp failed with failed | ⟨pair, -, impossible⟩
    · exact failed
    · cases impossible
  obtain ⟨m, there, position⟩ := (Within.whole (.refl _) within).blames e failed
  rw [position]
  exact ⟨there.isValid.le_utf8ByteSize, there.isValid⟩

/-- Reading a whole text moves between boundaries of it, and the text can be sliced there. -/
theorem Within.slices (within : p.Within (.start s) (.start s)) {x : Span}
    (member : x ∈ p.whole.spans (.start s)) :
    Text.slice? s x.start.offset x.stop.offset = some (String.ofList (x.stop.since x.start)) ∧
      Text.slice? s x.start.offset s.utf8ByteSize = some (String.ofList x.start.rest) ∧
      Text.slice? s x.stop.offset s.utf8ByteSize = some (String.ofList x.stop.rest) := by
  obtain ⟨start, onward⟩ := (Within.whole (.refl _) within).spans x member
  exact ⟨start.slice onward, start.slice_rest, (start.trans onward).slice_rest⟩

end Parser

/-- Every error blames a boundary between characters of its source text, or an end of it. And from
wherever the text is read, throughout a run that succeeds or fails, what was moved over and all that
is left can be sliced out of the text. -/
theorem boundaries_of_reading (o : CompileOptions) (registry : Registry) (s : String) :
    (∀ e, Expression.compile o s = .error e ∨ Path.parse o s = .error e ∨
        TypeName.parse registry s = .error e →
      e.position ≤ s.utf8ByteSize ∧ (⟨e.position⟩ : String.Pos.Raw).IsValid s) ∧
    ∀ x, x ∈ (Expression.readTerm o false (Expression.fuelFor s)).whole.spans (.start s) ∨
        x ∈ (Path.readHere o (Expression.fuelFor s)).whole.spans (.start s) ∨
        x ∈ (TypeName.readHere registry).whole.spans (.start s) →
      Text.slice? s x.start.offset x.stop.offset = some (String.ofList (x.stop.since x.start)) ∧
        Text.slice? s x.start.offset s.utf8ByteSize = some (String.ofList x.start.rest) ∧
        Text.slice? s x.stop.offset s.utf8ByteSize = some (String.ofList x.stop.rest) := by
  have start := Cursor.Onward.refl (.start s)
  have term := (Expression.confined o (Expression.fuelFor s)).term false start
  have path := Path.within_readHere o (Expression.fuelFor s) start
  have type := TypeName.within_readHere registry start
  refine ⟨fun e failed => ?_, fun x member => ?_⟩
  · rcases failed with compiled | failed | failed
    · rcases Outcome.bind_eq_error.mp compiled with failed | ⟨code, -, impossible⟩
      · exact term.isValid_of_readAll failed
      · cases impossible
    · exact path.isValid_of_readAll failed
    · exact type.isValid_of_readAll failed
  · rcases member with member | member | member
    · exact term.slices member
    · exact path.slices member
    · exact type.slices member

/-- An escape behind a character of two bytes is moved over by bytes, and a character of two bytes
is blamed where it begins. -/
theorem boundaries_of_reading_escape :
    let s := "\"é\\u00e9\" << ß"
    let behind := "\" << ß".toList
    let escape : Span := ⟨⟨5, "00e9".toList ++ behind⟩, ⟨9, behind⟩⟩
    Expression.compile {} s = .error ⟨.expectedValue, 14⟩ ∧
      escape ∈ (Expression.readTerm {} false (Expression.fuelFor s)).whole.spans (.start s) ∧
      (⟨14⟩ : String.Pos.Raw).IsValid s ∧ ¬(⟨15⟩ : String.Pos.Raw).IsValid s ∧
      Text.slice? s 5 9 = some "00e9" := by
  intro s behind escape
  have failed : Expression.compile {} s = .error ⟨.expectedValue, 14⟩ := by subst s; rfl
  have recorded : escape ∈
      (Expression.readTerm {} false (Expression.fuelFor s)).whole.spans (.start s) :=
    List.mem_of_getElem? (by subst s; rfl : _[5]? = some escape)
  obtain ⟨blamed, sliced⟩ := boundaries_of_reading {} .standard s
  exact ⟨failed, recorded, (blamed _ (.inl failed)).2, by decide +kernel,
    (sliced escape (.inl recorded)).1⟩

end Immediate
