import Immediate.Proofs.Source.Moving
/-! Types are read back from their text. The text leaves the list of children out when all are unset
and marks each unset one otherwise, the reader takes a missing list for unset children and a question
mark for one of them; so the two agree on every tree of types, and no two types have the same text. -/
namespace Immediate

open Immediate.Parser

namespace Ty

/-! ### The text of a type -/

/-- Child slots as they stand behind an opening bracket, up to the closing one. -/
def childrenChars : List (Option Ty) → List Char
  | [] => ['>']
  | [child] => (slotText child).toList ++ ['>']
  | child :: rest => (slotText child).toList ++ ',' :: ' ' :: childrenChars rest

/-- A type is written as its kind alone, with all its children unset, or with a list of them. -/
theorem text_cases (t : Ty) :
    (t = ofKind t.kind ∧ t.text.toList = t.kind.name.toList) ∨
      (t.children ≠ [] ∧
        t.text.toList = t.kind.name.toList ++ '<' :: childrenChars t.children) := by
  rcases t with s | (_ | element) | (_ | element) | ⟨_ | key, _ | value⟩ | ⟨_ | key, _ | value⟩
  case scalar | list.none | iterator.none | map.none.none | entry.none.none => exact .inl ⟨rfl, rfl⟩
  all_goals
    refine .inr ⟨List.cons_ne_nil _ _, ?_⟩
    simp [text, childrenChars, kind, children, toString]

end Ty

namespace TypeName

/-! ### Reading a name -/

/-- The registry still knows every kind by its own name. -/
def Canonical (registry : Registry) : Prop := ∀ kind : Kind, registry.kind? kind.name = some kind

/-- What follows a type: nothing, or what parts it from another child or ends the list of children. -/
inductive Behind : List Char → Prop where
  | nothing : Behind []
  | comma (rest : List Char) : Behind (',' :: rest)
  | bracket (rest : List Char) : Behind ('>' :: rest)

theorem Behind.takeWhile {tail : List Char} (behind : Behind tail) :
    tail.takeWhile isNameChar = [] := by
  cases behind <;> rfl

/-- Reads what stands behind the name of a kind, which began at `start`. -/
def readBehind (registry : Registry) (fuel : Nat) (kind : Kind) (start : Nat) : Parser Ty := do
  match (← Parser.ahead Cursor.skipBlanks).eat? ['<'] with
  | none => return .ofKind kind
  | some inside =>
    set inside
    let children ← readChildren registry fuel
    match Ty.ofChildren? kind children with
    | some t => return t
    | none => Parser.failAt (.wrongTypeArity kind.name kind.childCount children.length) start

theorem canonical_standard : Canonical .standard := by
  rintro (((_ | _ | _ | _) | _ | _ | _ | _ | _) | _ | _ | _ | _) <;> rfl

/-- A further name takes no kind its own. -/
theorem Canonical.register {registry : Registry} (known : Canonical registry) {name : String}
    (further : ∀ kind : Kind, kind.name ≠ name) (kind : Kind) :
    Canonical (registry.register name kind) := by
  intro other
  have passed : (other.name == name) = false := beq_eq_false_iff_ne.mpr (further other)
  rw [Registry.register, Registry.kind?, List.lookup_cons, passed]
  exact known other

variable {registry : Registry} {fuel : Nat} {c : Cursor} {tail : List Char}

/-- The name of a kind is made of the characters of names and does not start like an unset child. -/
theorem exists_cons_name (kind : Kind) : ∃ x rest, kind.name.toList = x :: rest ∧
    Text.isBlank x = false ∧ x ≠ '?' ∧ ∀ y ∈ x :: rest, isNameChar y = true := by
  rcases kind with ((_ | _ | _ | _) | _ | _ | _ | _ | _) | _ | _ | _ | _ <;>
    exact ⟨_, _, rfl, by decide, by decide, List.all_eq_true.mp (by decide)⟩

theorem run_read_name (fuel : Nat) (known : Canonical registry) {kind : Kind}
    (here : c.rest = kind.name.toList ++ tail) (ended : tail.takeWhile isNameChar = []) :
    ∃ m, m.rest = tail ∧
      (read registry (fuel + 1)).run c = (readBehind registry fuel kind c.offset).run m := by
  obtain ⟨x, rest, name, solid, -, each⟩ := exists_cons_name kind
  have front : c.rest = x :: (rest ++ tail) := by rw [here, name, List.cons_append]
  have taken : c.takeWhile isNameChar =
      (kind.name.toList, c.advance kind.name.toList.length) := by
    have name : c.rest.takeWhile isNameChar = kind.name.toList := by
      rw [here, List.takeWhile_append_of_pos (name ▸ each), ended, List.append_nil]
    simp only [Cursor.takeWhile, name]
  refine ⟨c.advance kind.name.toList.length, ?_, ?_⟩
  · rw [Cursor.rest_advance, here, List.drop_left]
  · rw [read, run_skipBlanks_bind, Cursor.skipBlanks_of_rest front solid, run_get_bind, run_takeWhile_bind,
      taken]
    dsimp only
    rw [String.ofList_toList, known kind]
    rfl

theorem run_readBehind_bare (kind : Kind) (start : Nat) (behind : Behind tail) (here : c.rest = tail) :
    (readBehind registry fuel kind start).run c = .ok (.ofKind kind, c) := by
  have noBracket : c.skipBlanks.eat? ['<'] = none := by
    cases behind with
    | nothing =>
      apply Cursor.eat?_eq_none
      rw [Cursor.current?, Cursor.rest_skipBlanks, here]
      decide
    | comma rest | bracket rest =>
      rw [Cursor.skipBlanks_of_rest here (by decide)]
      apply Cursor.eat?_eq_none
      rw [Cursor.current?_of_rest here]
      decide
  rw [readBehind, run_ahead_bind, noBracket]
  rfl

theorem run_readBehind_list {kind : Kind} {children : List (Option Ty)} {t : Ty} {c' : Cursor}
    (start : Nat) (here : c.rest = '<' :: tail) (right : Ty.ofChildren? kind children = some t)
    (inside : (readChildren registry fuel).run (c.advance 1) = .ok (children, c')) :
    (readBehind registry fuel kind start).run c = .ok (t, c') := by
  have bracket : c.skipBlanks.eat? ['<'] = some (c.advance 1) := by
    rw [Cursor.skipBlanks_of_rest here (by decide)]
    exact Cursor.eat?_eq_some (Cursor.current?_of_rest here)
  rw [readBehind, run_ahead_bind, bracket]
  dsimp only
  rw [run_set_bind, run_bind inside, right]
  rfl

/-! ### Reading children -/

/-- A type is read back, wherever its text stands. The fuel need only exceed the length of the text. -/
def ReadsBack (registry : Registry) (t : Ty) : Prop :=
  ∀ {fuel : Nat} {c : Cursor} {tail : List Char}, t.text.toList.length < fuel → Behind tail →
    c.rest = t.text.toList ++ tail →
    ∃ c', (read registry fuel).run c = .ok (t, c') ∧ c'.rest = tail

theorem exists_cons_text (t : Ty) : ∃ x rest, t.text.toList = x :: rest ∧
    Text.isBlank x = false ∧ x ≠ '?' := by
  obtain ⟨x, rest, name, solid, other, -⟩ := exists_cons_name t.kind
  rcases t.text_cases with ⟨-, text⟩ | ⟨-, text⟩
  · exact ⟨x, rest, text.trans name, solid, other⟩
  · exact ⟨x, rest ++ '<' :: Ty.childrenChars t.children, by rw [text, name, List.cons_append], solid,
      other⟩

/-- Children do not start with a blank. -/
theorem exists_cons_childrenChars (slot : Option Ty) (others : List (Option Ty)) :
    ∃ x rest, Ty.childrenChars (slot :: others) = x :: rest ∧ Text.isBlank x = false := by
  obtain ⟨x, rest, text, solid⟩ : ∃ x rest, (Ty.slotText slot).toList = x :: rest ∧
      Text.isBlank x = false := by
    cases slot with
    | none => exact ⟨'?', [], rfl, by decide⟩
    | some t =>
      obtain ⟨x, rest, text, solid, -⟩ := exists_cons_text t
      exact ⟨x, rest, text, solid⟩
  cases others with
  | nil => exact ⟨x, rest ++ ['>'], by rw [Ty.childrenChars, text, List.cons_append], solid⟩
  | cons second more =>
    refine ⟨x, rest ++ ',' :: ' ' :: Ty.childrenChars (second :: more), ?_, solid⟩
    change (Ty.slotText slot).toList ++ _ = _
    rw [text, List.cons_append]

/-- A child slot is read before what parts it from the next one. -/
theorem run_readChild {slot : Option Ty} (each : ∀ t ∈ slot, ReadsBack registry t)
    (enough : (Ty.slotText slot).toList.length < fuel) (behind : Behind tail)
    (here : c.skipBlanks.rest = (Ty.slotText slot).toList ++ tail) :
    ∃ m, m.rest = tail ∧
      (readChildren registry (fuel + 1)).run c = (readOthers registry fuel slot).run m := by
  rw [readChildren_succ, run_skipBlanks_bind]
  cases slot with
  | none =>
    change c.skipBlanks.rest = '?' :: tail at here
    have mark := Cursor.eat?_eq_some (Cursor.current?_of_rest here)
    exact ⟨c.skipBlanks.advance 1, Cursor.rest_behind here, run_bind (run_eat_of_some mark)⟩
  | some t =>
    obtain ⟨x, rest, text, -, other⟩ := exists_cons_text t
    obtain ⟨m, read, ends⟩ := each t rfl enough behind here
    have noMark : c.skipBlanks.eat? ['?'] = none := by
      apply Cursor.eat?_eq_none
      rw [Ty.slotText, text] at here
      rw [Cursor.current?_of_rest here]
      exact fun mark => other (Option.some.inj mark)
    refine ⟨m, ends, ?_⟩
    rw [run_bind (run_eat_of_none noMark), if_neg Bool.false_ne_true, map_eq_pure_bind, bind_assoc,
      run_bind read]
    rfl

/-- Children are read back up to the closing bracket. -/
theorem run_readChildren {children : List (Option Ty)} (some : children ≠ [])
    (each : ∀ slot ∈ children, ∀ t ∈ slot, ReadsBack registry t)
    (enough : (Ty.childrenChars children).length < fuel)
    (here : c.skipBlanks.rest = Ty.childrenChars children ++ tail) :
    ∃ c', (readChildren registry fuel).run c = .ok (children, c') ∧ c'.rest = tail := by
  induction children generalizing fuel c with
  | nil => exact absurd rfl some
  | cons slot others ih =>
    obtain ⟨fuel, rfl⟩ := Nat.exists_eq_add_one_of_ne_zero (Nat.ne_zero_of_lt enough)
    have first := each slot List.mem_cons_self
    cases others with
    | nil =>
      simp only [Ty.childrenChars, List.append_assoc, List.length_append] at enough here
      obtain ⟨m, ends, run⟩ := run_readChild first (Nat.lt_of_succ_lt_succ enough) (.bracket tail) here
      have noComma : m.eat? [','] = none := by
        apply Cursor.eat?_eq_none
        rw [Cursor.current?_of_rest ends]
        decide
      have bracket := Cursor.eat?_eq_some (Cursor.current?_of_rest ends)
      refine ⟨m.advance 1, ?_, Cursor.rest_behind ends⟩
      rw [run, readOthers, run_skipBlanks_bind, Cursor.skipBlanks_of_rest ends (by decide),
        run_bind (run_eat_of_none noComma), if_neg Bool.false_ne_true,
        run_bind (run_eat_of_some bracket), if_pos rfl]
      rfl
    | cons second rest =>
      have chars : Ty.childrenChars (slot :: second :: rest) = (Ty.slotText slot).toList ++
          ',' :: ' ' :: Ty.childrenChars (second :: rest) := rfl
      rw [chars, List.append_assoc] at here
      rw [chars, List.length_append, List.length_cons, List.length_cons] at enough
      have shorter : (Ty.slotText slot).toList.length < fuel := by omega
      obtain ⟨m, ends, run⟩ := run_readChild first shorter (.comma _) here
      have comma := Cursor.eat?_eq_some (Cursor.current?_of_rest ends)
      have behind : (m.advance 1).rest = ' ' :: (Ty.childrenChars (second :: rest) ++ tail) :=
        Cursor.rest_behind ends
      have space : (m.advance 1).skipBlanks.rest = Ty.childrenChars (second :: rest) ++ tail := by
        obtain ⟨x, more, front, solid⟩ := exists_cons_childrenChars second rest
        have blank : Text.isBlank ' ' = true := by decide
        rw [Cursor.rest_skipBlanks, behind, List.dropWhile_cons_of_pos blank, front, List.cons_append,
          List.dropWhile_cons_of_neg (by simp [solid])]
      have fewer : (Ty.childrenChars (second :: rest)).length < fuel := by omega
      obtain ⟨c', further, closed⟩ := ih (List.cons_ne_nil _ _)
        (fun other member => each other (List.mem_cons_of_mem _ member)) fewer space
      refine ⟨c', ?_, closed⟩
      rw [run, readOthers, run_skipBlanks_bind, Cursor.skipBlanks_of_rest ends (by decide),
        run_bind (run_eat_of_some comma), if_pos rfl, run_bind further]
      rfl

/-- A type is read back if its children are. -/
theorem readsBack_of_children (known : Canonical registry) {t : Ty}
    (each : ∀ slot ∈ t.children, ∀ u ∈ slot, ReadsBack registry u) : ReadsBack registry t := by
  intro fuel c tail enough behind here
  obtain ⟨fuel, rfl⟩ := Nat.exists_eq_add_one_of_ne_zero (Nat.ne_zero_of_lt enough)
  rcases t.text_cases with ⟨alone, text⟩ | ⟨some, text⟩
  · rw [text] at here
    obtain ⟨m, ends, run⟩ := run_read_name fuel known here behind.takeWhile
    refine ⟨m, ?_, ends⟩
    rw [run, run_readBehind_bare t.kind c.offset behind ends, ← alone]
  · rw [text, List.append_assoc] at here
    rw [text, List.length_append, List.length_cons] at enough
    obtain ⟨m, ends, run⟩ := run_read_name fuel known here rfl
    have inside : (m.advance 1).skipBlanks.rest = Ty.childrenChars t.children ++ tail := by
      obtain ⟨slot, others, children⟩ := List.exists_cons_of_ne_nil some
      obtain ⟨x, more, front, solid⟩ := exists_cons_childrenChars slot others
      have behind : (m.advance 1).rest = Ty.childrenChars t.children ++ tail := Cursor.rest_behind ends
      rw [children, front, List.cons_append] at behind ⊢
      rw [Cursor.skipBlanks_of_rest behind solid]
      exact behind
    have fewer : (Ty.childrenChars t.children).length < fuel := by omega
    obtain ⟨c', read, closed⟩ := run_readChildren some each fewer inside
    refine ⟨c', ?_, closed⟩
    rw [run]
    exact run_readBehind_list c.offset ends (Ty.ofChildren?_children t) read

mutual

theorem readsBack (known : Canonical registry) : ∀ t : Ty, ReadsBack registry t
  | .scalar _ => readsBack_of_children known fun _ member => absurd member List.not_mem_nil
  | .list element => readsBack_of_children known fun slot member => by
    cases List.mem_singleton.mp member
    exact readsBack_slot known element
  | .iterator element => readsBack_of_children known fun slot member => by
    cases List.mem_singleton.mp member
    exact readsBack_slot known element
  | .map key value => readsBack_of_children known
      (List.forall_mem_cons.mpr ⟨readsBack_slot known key,
        List.forall_mem_singleton.mpr (readsBack_slot known value)⟩)
  | .entry key value => readsBack_of_children known
      (List.forall_mem_cons.mpr ⟨readsBack_slot known key,
        List.forall_mem_singleton.mpr (readsBack_slot known value)⟩)

theorem readsBack_slot (known : Canonical registry) :
    ∀ slot : Option Ty, ∀ t ∈ slot, ReadsBack registry t
  | none, _, held => nomatch held
  | some t, _, held => Option.some.inj held ▸ readsBack known t

end

/-- Wherever each kind still goes by its own name, a type is what its text is read as; so no two types
have the same text. -/
theorem parse_text :
    (∀ registry, Canonical registry → ∀ t : Ty, parse registry t.text = .ok t) ∧
      Function.Injective Ty.text := by
  have back (registry : Registry) (known : Canonical registry) (t : Ty) :
      parse registry t.text = .ok t := by
    have enough : t.text.toList.length < 2 * t.text.toList.length + 2 := by omega
    obtain ⟨c', read, ends⟩ := readsBack known t (c := .start t.text) enough .nothing
      (List.append_nil _).symm
    refine readAll_eq_ok.mpr ⟨c', ?_, ?_⟩
    · rw [readHere, run_get_bind]
      exact read
    · rw [Cursor.current?, Cursor.rest_skipBlanks, ends]
      rfl
  refine ⟨back, fun t u same => ?_⟩
  have read := back .standard canonical_standard t
  rw [same, back .standard canonical_standard u] at read
  exact (Except.ok.inj read).symm

/-- With another name for one of the kinds, and brackets that close one behind the other. -/
theorem parse_text_aliased :
    let registry := Registry.standard.register "number" .int
    let t : Ty := .map none (some (.list (some (.entry (some .string) none))))
    Canonical registry ∧ t.text = "map<?, list<entry<string, ?>>>" ∧ parse registry t.text = .ok t := by
  intro registry t
  have further (kind : Kind) : kind.name ≠ "number" := by
    rcases kind with ((_ | _ | _ | _) | _ | _ | _ | _ | _) | _ | _ | _ | _ <;> decide
  have known : Canonical registry := canonical_standard.register further .int
  exact ⟨known, by decide, parse_text.1 registry known t⟩

end TypeName

end Immediate
