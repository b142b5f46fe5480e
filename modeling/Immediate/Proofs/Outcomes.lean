/-! Outcomes of computations that may fail. A sequence of steps succeeds exactly when every step
does, so a success can be taken apart into those of its steps. -/
namespace Immediate.Outcome

variable {ε α β : Type}

theorem ok_bind (a : α) (next : α → Except ε β) : (Except.ok a >>= next) = next a := rfl

theorem error_bind (e : ε) (next : α → Except ε β) : (Except.error e >>= next) = .error e := rfl

theorem bind_eq_ok {first : Except ε α} {next : α → Except ε β} {b : β} :
    (first >>= next) = .ok b ↔ ∃ a, first = .ok a ∧ next a = .ok b := by
  cases first with
  | error e => exact ⟨nofun, fun ⟨_, impossible, _⟩ => nomatch impossible⟩
  | ok a =>
    refine ⟨fun held => ⟨a, rfl, held⟩, ?_⟩
    rintro ⟨a', equal, held⟩
    cases equal
    exact held

theorem bind_eq_error {first : Except ε α} {next : α → Except ε β} {e : ε} :
    (first >>= next) = .error e ↔ first = .error e ∨ ∃ a, first = .ok a ∧ next a = .error e := by
  cases first with
  | error e' => exact ⟨fun held => .inl (congrArg Except.error (Except.error.inj held)),
      fun | .inl held => congrArg Except.error (Except.error.inj held)⟩
  | ok a =>
    refine ⟨fun held => .inr ⟨a, rfl, held⟩, ?_⟩
    rintro (impossible | ⟨a', equal, held⟩)
    · cases impossible
    · cases equal
      exact held

theorem map_eq_ok {f : α → β} {first : Except ε α} {b : β} :
    (f <$> first) = .ok b ↔ ∃ a, first = .ok a ∧ f a = b := by
  cases first with
  | error e => exact ⟨nofun, fun ⟨_, impossible, _⟩ => nomatch impossible⟩
  | ok a =>
    refine ⟨fun held => ⟨a, rfl, Except.ok.inj held⟩, ?_⟩
    rintro ⟨a', equal, held⟩
    cases equal
    exact congrArg Except.ok held

theorem pure_eq_ok {a b : α} : (pure a : Except ε α) = .ok b ↔ a = b :=
  ⟨Except.ok.inj, congrArg Except.ok⟩

/-- What a traversal gives was given for one of the members each. -/
theorem exists_of_mapM {f : α → Except ε β} {members : List α} {given : List β}
    (run : members.mapM f = .ok given) : ∀ b ∈ given, ∃ a ∈ members, f a = .ok b := by
  induction members generalizing given with
  | nil =>
    cases run
    exact nofun
  | cons a rest ih =>
    rw [List.mapM_cons] at run
    obtain ⟨first, ranFirst, others⟩ := bind_eq_ok.mp run
    obtain ⟨more, ranRest, equal⟩ := bind_eq_ok.mp others
    cases pure_eq_ok.mp equal
    intro b member
    rcases List.mem_cons.mp member with rfl | later
    · exact ⟨a, List.mem_cons_self, ranFirst⟩
    · obtain ⟨other, inside, ran⟩ := ih ranRest b later
      exact ⟨other, List.mem_cons_of_mem _ inside, ran⟩

/-- A traversal gives what each of the members does. -/
theorem mapM_of_each {f : α → Except ε β} {g : α → β} {members : List α}
    (each : ∀ a ∈ members, f a = .ok (g a)) : members.mapM f = .ok (members.map g) := by
  induction members with
  | nil => rfl
  | cons a rest ih =>
    rw [List.mapM_cons, each a List.mem_cons_self, ok_bind,
      ih fun other member => each other (List.mem_cons_of_mem a member)]
    rfl

/-- A traversal succeeds just if all members do. -/
theorem exists_mapM_iff {f : α → Except ε β} {members : List α} :
    (∃ given, members.mapM f = .ok given) ↔ ∀ a ∈ members, ∃ b, f a = .ok b := by
  induction members with
  | nil => exact ⟨fun _ a member => absurd member List.not_mem_nil, fun _ => ⟨[], rfl⟩⟩
  | cons a rest ih =>
    rw [List.forall_mem_cons, ← ih, List.mapM_cons]
    constructor
    · rintro ⟨given, run⟩
      obtain ⟨first, ranFirst, others⟩ := bind_eq_ok.mp run
      obtain ⟨more, ranRest, -⟩ := bind_eq_ok.mp others
      exact ⟨⟨first, ranFirst⟩, more, ranRest⟩
    · rintro ⟨⟨first, ranFirst⟩, more, ranRest⟩
      exact ⟨first :: more, by rw [ranFirst, ok_bind, ranRest, ok_bind]; rfl⟩

/-- A traversal fails as one of the members does. -/
theorem exists_of_mapM_error {f : α → Except ε β} {members : List α} {e : ε}
    (run : members.mapM f = .error e) : ∃ a ∈ members, f a = .error e := by
  induction members with
  | nil => cases run
  | cons a rest ih =>
    rw [List.mapM_cons] at run
    rcases bind_eq_error.mp run with first | ⟨b, -, others⟩
    · exact ⟨a, List.mem_cons_self, first⟩
    · rcases bind_eq_error.mp others with later | ⟨more, -, impossible⟩
      · obtain ⟨other, inside, failed⟩ := ih later
        exact ⟨other, List.mem_cons_of_mem _ inside, failed⟩
      · cases impossible

end Immediate.Outcome
