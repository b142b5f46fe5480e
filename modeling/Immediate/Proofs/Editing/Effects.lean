import Immediate.Proofs.Editing.Changing
import Immediate.Proofs.Editing.Frames
/-! The effect of assignments one after another. Locations are resolved once and then written to in
turn, in a value that grows under them; those where an assignment fails are passed over. The target is
that every location holds in the end what was last assigned to it, and that nothing else changed. -/
namespace Immediate

open Outcome Value

namespace Location

/-- Whether two locations lead to one slot. -/
def same (location other : Location) : Bool :=
  location.length = other.length && location.covers other

/-- The last value among assignments to a location. -/
def lastTo (location : Location) : List (Location × Slot) → Option Slot
  | [] => none
  | (other, new) :: rest =>
    (lastTo location rest).or (if other.same location then some new else none)

theorem covers_append {front front' : Location} (long : front.length = front'.length)
    (back back' : Location) :
    covers (front ++ back) (front' ++ back') = (front.covers front' && back.covers back') := by
  induction front generalizing front' with
  | nil =>
    cases List.eq_nil_of_length_eq_zero long.symm
    simp [covers]
  | cons first rest ih =>
    cases front' with
    | nil => cases long
    | cons other more => simp [covers, ih (Nat.succ.inj long), Bool.and_assoc]

theorem covers_concat {front front' : Location} {step step' : Step}
    (long : front.length = front'.length) :
    covers (front ++ [step]) (front' ++ [step']) = (front.covers front' && step.same step') := by
  simp [covers_append long, covers]

theorem length_of_same {location other : Location} (held : location.same other = true) :
    location.length = other.length := by
  simp only [same, Bool.and_eq_true, decide_eq_true_eq] at held
  exact held.1

theorem same_concat {front front' : Location} {step step' : Step} (held : front.same front' = true)
    (alike : step.same step' = true) : same (front ++ [step]) (front' ++ [step']) = true := by
  have long := length_of_same held
  simp only [same, Bool.and_eq_true, decide_eq_true_eq] at held ⊢
  rw [covers_concat long, held.2, alike]
  simp [long]

theorem keyed_append {front back : Location} : Keyed (front ++ back) ↔ front.Keyed ∧ back.Keyed :=
  List.forall_mem_append

theorem covers_refl {location : Location} (own : location.Keyed) : location.covers location = true := by
  induction location with
  | nil => rfl
  | cons step rest ih =>
    obtain ⟨stepKeyed, restKeyed⟩ := keyed_cons.mp own
    simp [covers, Step.same_refl stepKeyed, ih restKeyed]

theorem covers_comm {location other : Location} (long : location.length = other.length)
    (own : location.Keyed) (others : other.Keyed) :
    location.covers other = other.covers location := by
  induction location generalizing other with
  | nil =>
    cases List.eq_nil_of_length_eq_zero long.symm
    rfl
  | cons step rest ih =>
    cases other with
    | nil => cases long
    | cons first more =>
      obtain ⟨stepKeyed, restKeyed⟩ := keyed_cons.mp own
      obtain ⟨firstKeyed, moreKeyed⟩ := keyed_cons.mp others
      simp [covers, Step.same_comm stepKeyed firstKeyed, ih (Nat.succ.inj long) restKeyed moreKeyed]

theorem Pads.length_eq {location other : Location} (pads : location.Pads other) :
    location.length = other.length := by
  induction pads with
  | here => rfl
  | deeper _ _ ih => simp [ih]

/-- Nothing was assigned to a location that none of the assigned ones leads to. -/
theorem lastTo_eq_none {location : Location} {assigned : List (Location × Slot)} :
    location.lastTo assigned = none ↔ ∀ pair ∈ assigned, pair.1.same location = false := by
  induction assigned with
  | nil => simp [lastTo]
  | cons pair rest ih =>
    obtain ⟨other, new⟩ := pair
    simp [lastTo, ih, and_comm]

end Location

namespace Value

/-- Locations that lead to one slot read the same. -/
theorem at?_congr {root slot : Slot} {location other : Location} (keyed : SlotKeyed root)
    (own : location.Keyed) (others : other.Keyed) (same : location.same other = true)
    (read : at? location root = .ok slot) : at? other root = .ok slot := by
  induction location generalizing other root with
  | nil =>
    cases other with
    | nil => exact read
    | cons => simp [Location.same] at same
  | cons step rest ih =>
    cases other with
    | nil => simp [Location.same] at same
    | cons first more =>
      obtain ⟨stepKeyed, restKeyed⟩ := Location.keyed_cons.mp own
      obtain ⟨firstKeyed, moreKeyed⟩ := Location.keyed_cons.mp others
      simp [Location.same, Location.covers] at same
      rw [at?_cons] at read ⊢
      obtain ⟨child, reached, below⟩ := bind_eq_ok.mp read
      rw [(at?_of_same keyed stepKeyed firstKeyed same.2.1).mpr reached]
      refine ih (keyed_at? keyed reached) restKeyed moreKeyed ?_ below
      simp [Location.same, same]

theorem childTy?_of_same {step other : Step} (same : step.same other = true) (slot : Slot)
    {known : Option Ty} (declared : childTy? step slot = .ok known) :
    childTy? other slot = .ok known := by
  obtain ⟨v, rfl, suits⟩ := suits_of_childTy? declared
  cases suits <;> cases other <;> first | exact declared | simp [Step.same] at same

theorem putAt_concat {front : Location} {step : Step} {new root parent : Slot}
    (there : at? front root = .ok parent) :
    putAt (front ++ [step]) new root = putAt front (putChild step new parent) root := by
  induction front generalizing root with
  | nil =>
    cases there
    exact putAt_last step new _
  | cons first rest ih =>
    rw [at?_cons] at there
    obtain ⟨child, reached, below⟩ := bind_eq_ok.mp there
    rw [List.cons_append, putAt_onward reached, putAt_onward reached, ih below]

theorem writable_concat {front : Location} {step : Step} {root parent : Slot} {known : Option Ty}
    (there : at? front root = .ok parent) (declared : childTy? step parent = .ok known) :
    Writable (front ++ [step]) root := by
  induction front generalizing root with
  | nil =>
    cases there
    exact .last declared
  | cons first rest ih =>
    rw [at?_cons] at there
    obtain ⟨child, reached, below⟩ := bind_eq_ok.mp there
    exact .onward reached (ih below)

end Value

namespace TypedValue

variable {t t' u : TypedValue} {location : Location} {new : Slot}

/-! ### One assignment -/

/-- The type to which what is assigned at a location is cast: that of the variable, or the child type
that the container there declares. -/
def declaredAt? (t : TypedValue) (location : Location) : Except EvalError (Option Ty) :=
  match location.getLast? with
  | none => .ok (some t.ty)
  | some step => do childTy? step (← at? location.dropLast t.slot)

theorem declaredAt?_concat (t : TypedValue) (front : Location) (step : Step) :
    t.declaredAt? (front ++ [step]) = at? front t.slot >>= childTy? step := by
  unfold declaredAt?
  rw [List.getLast?_concat, List.dropLast_concat]

/-- What a successful assignment leaves. The cast value is written, unless the same is there. -/
inductive Assigned (t : TypedValue) : Location → Slot → TypedValue → Prop where
  | whole {new x : Slot} (cast : castSlot (some t.ty) new = .ok x) : Assigned t [] new ⟨t.ty, x⟩
  | kept {front : Location} {step : Step} {parent new x old : Slot} {known : Option Ty}
    (there : at? front t.slot = .ok parent) (declared : childTy? step parent = .ok known)
    (cast : castSlot known new = .ok x) (read : at? (front ++ [step]) t.slot = .ok old)
    (same : sameSlot old x = true) : Assigned t (front ++ [step]) new t
  | put {front : Location} {step : Step} {parent new x : Slot} {known : Option Ty}
    (there : at? front t.slot = .ok parent) (declared : childTy? step parent = .ok known)
    (cast : castSlot known new = .ok x) :
    Assigned t (front ++ [step]) new ⟨t.ty, putAt (front ++ [step]) x t.slot⟩

theorem assigned_of_assignAt {changed : Bool} (run : t.assignAt location new = .ok (t', changed)) :
    Assigned t location new t' := by
  rcases List.eq_nil_or_concat location with rfl | ⟨front, step, rfl⟩
  · obtain ⟨assigned, ran, equal⟩ := bind_eq_ok.mp run
    obtain ⟨x, cast, rfl⟩ := map_eq_ok.mp ran
    cases pure_eq_ok.mp equal
    exact .whole cast
  · rw [List.concat_eq_append] at run ⊢
    obtain ⟨parent, parent', there, assigned, rfl⟩ := parent_of_assignAt run
    obtain ⟨known, x, declared, cast, ⟨-, rfl, old, read, same⟩ | ⟨-, rfl, -⟩⟩ :=
      assignChild_cases assigned
    · have whole : at? (front ++ [step]) t.slot = .ok old := by rw [at?_append, there, ok_bind, read]
      rw [putAt_of_at? there]
      exact .kept there declared cast whole same
    · rw [← putAt_concat there]
      exact .put there declared cast

namespace Assigned

theorem ty (assigned : Assigned t location new t') : t'.ty = t.ty := by
  cases assigned <;> rfl

/-- The value that was assigned reads back, cast to the type declared there. -/
theorem reads_back (assigned : Assigned t location new t') (keyed : SlotKeyed t.slot)
    (own : location.Keyed) (value : SlotKeyed new) : ∃ known x slot,
      t.declaredAt? location = .ok known ∧ castSlot known new = .ok x ∧
      at? location t'.slot = .ok slot ∧ sameSlot slot x = true := by
  cases assigned with
  | @whole _ x cast => exact ⟨_, x, x, rfl, cast, rfl, sameSlot_refl (slotKeyed_of_castSlot value cast)⟩
  | @kept front step parent _ x old known there declared cast read same =>
    refine ⟨known, x, old, ?_, cast, read, same⟩
    rw [declaredAt?_concat, there]
    exact declared
  | @put front step parent _ x known there declared cast =>
    refine ⟨known, x, x, ?_, cast, ?_, sameSlot_refl (slotKeyed_of_castSlot value cast)⟩
    · rw [declaredAt?_concat, there]
      exact declared
    · have whole := Location.covers_refl own
      rw [at?_putAt_of_covers (writable_concat there declared) keyed own own whole, List.drop_length]
      rfl

theorem keyed (assigned : Assigned t location new t') (keyed : SlotKeyed t.slot)
    (own : location.Keyed) (value : SlotKeyed new) : SlotKeyed t'.slot := by
  cases assigned with
  | whole cast => exact slotKeyed_of_castSlot value cast
  | kept => exact keyed
  | put there declared cast =>
    exact keyed_putAt (writable_concat there declared) keyed own (slotKeyed_of_castSlot value cast)

theorem apart (assigned : Assigned t location new t') (keyed : SlotKeyed t.slot)
    (own : location.Keyed) {other : Location} (others : other.Keyed)
    (notBelow : location.covers other = false) (notAbove : other.covers location = false)
    {slot : Slot} (read : at? other t.slot = .ok slot) : at? other t'.slot = .ok slot := by
  cases assigned with
  | whole => simp [Location.covers] at notBelow
  | kept => exact read
  | put there declared cast =>
    exact at?_putAt_of_apart (writable_concat there declared) keyed own others notBelow notAbove read

theorem fresh (assigned : Assigned t location new t') (keyed : SlotKeyed t.slot)
    (own : location.Keyed) {other : Location} (others : other.Keyed) {slot : Slot}
    (read : at? other t'.slot = .ok slot) : (∃ old, at? other t.slot = .ok old) ∨
      location.covers other = true ∨ slot = none ∧ location.Pads other := by
  cases assigned with
  | whole => exact .inr (.inl rfl)
  | kept => exact .inl ⟨slot, read⟩
  | put there declared cast =>
    exact at?_putAt_fresh (writable_concat there declared) keyed own others read

/-- Containers keep what they declare for their children. -/
theorem declared (assigned : Assigned t location new t') {other : Location} {known : Option Ty}
    (long : other.length = location.length) (after : t'.declaredAt? other = .ok known) :
    t.declaredAt? other = .ok known := by
  rcases List.eq_nil_or_concat other with rfl | ⟨front, step, rfl⟩
  · rw [← after]
    exact congrArg (fun ty => Except.ok (some ty)) assigned.ty.symm
  · rw [List.concat_eq_append] at long after ⊢
    rw [declaredAt?_concat] at after ⊢
    cases assigned with
    | whole => simp at long
    | kept => exact after
    | @put front' step' parent _ x known' there declared cast =>
      obtain ⟨middle', reached, below⟩ := bind_eq_ok.mp after
      dsimp only at reached
      rw [putAt_concat there] at reached
      have short : front.length ≤ front'.length := by
        simp at long
        omega
      obtain ⟨middle, found, alike⟩ := shell_at?_putAt there (shell_putChild ..) short reached
      rw [found, ok_bind, ← childTy?_shell, ← alike, childTy?_shell]
      exact below

/-- Nothing is taken away that is no deeper, and containers above keep what they declare. -/
theorem forward (assigned : Assigned t location new t') (keyed : SlotKeyed t.slot)
    (own : location.Keyed) {other : Location} (others : other.Keyed)
    (short : other.length ≤ location.length) {slot : Slot} (read : at? other t.slot = .ok slot) :
    ∃ slot', at? other t'.slot = .ok slot' ∧
      (other.length < location.length → shell slot' = shell slot) := by
  cases assigned with
  | @whole _ x =>
    cases List.eq_nil_of_length_eq_zero (Nat.le_zero.mp short)
    exact ⟨x, rfl, fun impossible => absurd impossible (Nat.lt_irrefl _)⟩
  | kept => exact ⟨slot, read, fun _ => rfl⟩
  | put there declared cast =>
    exact at?_putAt_forward (writable_concat there declared) keyed own others short read

end Assigned

/-- An assignment succeeds where something is declared to which the value can be cast. -/
theorem exists_assignAt_iff : (∃ result, t.assignAt location new = .ok result) ↔
    ∃ known x, t.declaredAt? location = .ok known ∧ castSlot known new = .ok x := by
  constructor
  · rintro ⟨⟨t', changed⟩, run⟩
    cases assigned_of_assignAt run with
    | @whole _ x cast => exact ⟨some t.ty, x, rfl, cast⟩
    | @kept _ _ _ _ x _ known there declared cast =>
      refine ⟨known, x, ?_, cast⟩
      rw [declaredAt?_concat, there]
      exact declared
    | @put _ _ _ _ x known there declared cast =>
      refine ⟨known, x, ?_, cast⟩
      rw [declaredAt?_concat, there]
      exact declared
  · rintro ⟨known, x, declared, cast⟩
    rcases List.eq_nil_or_concat location with rfl | ⟨front, step, rfl⟩
    · cases declared
      refine ⟨(⟨t.ty, x⟩, !sameSlot x t.slot), ?_⟩
      change (do
        let assigned ← (fun x => (⟨t.ty, x⟩ : TypedValue)) <$> castSlot (some t.ty) new
        return (assigned, !sameSlot assigned.slot t.slot)) = _
      rw [cast]
      rfl
    · rw [List.concat_eq_append] at declared ⊢
      rw [declaredAt?_concat] at declared
      obtain ⟨parent, there, below⟩ := bind_eq_ok.mp declared
      unfold assignAt
      rw [List.getLast?_concat, List.dropLast_concat]
      dsimp only
      rw [alterAt_eq, there, ok_bind, assignChild_eq, below, ok_bind, cast, ok_bind]
      cases at? [step] parent with
      | error e => exact ⟨_, rfl⟩
      | ok old => exact ⟨_, rfl⟩

/-- Locations that lead to one slot are declared alike. -/
theorem declaredAt?_congr {other : Location} {known : Option Ty} (keyed : SlotKeyed t.slot)
    (own : location.Keyed) (others : other.Keyed) (same : location.same other = true)
    (declared : t.declaredAt? location = .ok known) : t.declaredAt? other = .ok known := by
  have long := Location.length_of_same same
  rcases List.eq_nil_or_concat location with rfl | ⟨front, step, rfl⟩
  · cases List.eq_nil_of_length_eq_zero long.symm
    exact declared
  · rcases List.eq_nil_or_concat other with rfl | ⟨front', step', rfl⟩
    · simp at long
    · simp only [List.concat_eq_append, List.length_append, List.length_singleton,
        Nat.add_right_cancel_iff] at long own others same declared ⊢
      simp [Location.same, Location.covers_concat long] at same
      have fronts : Location.same front front' = true := by simp [Location.same, same]
      rw [declaredAt?_concat] at declared ⊢
      obtain ⟨parent, there, below⟩ := bind_eq_ok.mp declared
      have ownFront := (Location.keyed_append.mp own).1
      have otherFront := (Location.keyed_append.mp others).1
      rw [at?_congr keyed ownFront otherFront fronts there]
      exact childTy?_of_same same.2.2 parent below

/-! ### One after another -/

/-- The assignments that succeed, in a sequence in which those that fail are passed over. -/
def succeeded : TypedValue → List (Location × Slot) → List (Location × Slot)
  | _, [] => []
  | t, (location, new) :: rest =>
    match t.assignAt location new with
    | .ok (t', _) => (location, new) :: t'.succeeded rest
    | .error _ => t.succeeded rest

/-- Successful assignments one after another. -/
inductive Runs : TypedValue → List (Location × Slot) → TypedValue → Prop where
  | nil {t : TypedValue} : Runs t [] t
  | cons {t u t' : TypedValue} {location : Location} {new : Slot} {rest : List (Location × Slot)}
    (first : Assigned t location new u) (others : Runs u rest t') :
    Runs t ((location, new) :: rest) t'

theorem runs_succeeded (t : TypedValue) (assigned : List (Location × Slot)) :
    Runs t (t.succeeded assigned) (t.altered ((Path.assigning assigned).map (·.2))) := by
  induction assigned generalizing t with
  | nil => exact .nil
  | cons pair rest ih =>
    obtain ⟨location, new⟩ := pair
    simp only [succeeded, Path.assigning, List.map_cons, altered]
    cases ran : t.assignAt location new with
    | ok changed =>
      obtain ⟨u, flag⟩ := changed
      exact .cons (assigned_of_assignAt ran) (ih u)
    | error e => exact ih t

theorem succeeded_subset (t : TypedValue) (assigned : List (Location × Slot)) :
    t.succeeded assigned ⊆ assigned := by
  induction assigned generalizing t with
  | nil => exact List.Subset.refl _
  | cons pair rest ih =>
    obtain ⟨location, new⟩ := pair
    simp only [succeeded]
    split
    · exact List.cons_subset_cons _ (ih _)
    · exact List.subset_cons_of_subset _ (ih _)

/-- Assignments to locations of one length, in which maps keep their keys apart. -/
structure Proper (n : Nat) (done : List (Location × Slot)) : Prop where
  long : ∀ pair ∈ done, pair.1.length = n
  locations : ∀ pair ∈ done, pair.1.Keyed
  values : ∀ pair ∈ done, SlotKeyed pair.2

theorem Proper.cons {n : Nat} {location : Location} {new : Slot} {rest : List (Location × Slot)}
    (proper : Proper n ((location, new) :: rest)) :
    (location.length = n ∧ location.Keyed ∧ SlotKeyed new) ∧ Proper n rest := by
  obtain ⟨long, locations, values⟩ := proper
  simp only [List.forall_mem_cons] at long locations values
  exact ⟨⟨long.1, locations.1, values.1⟩, long.2, locations.2, values.2⟩

theorem Proper.succeeded {n : Nat} {assigned : List (Location × Slot)} (proper : Proper n assigned)
    (t : TypedValue) : Proper n (t.succeeded assigned) := by
  have subset := t.succeeded_subset assigned
  exact ⟨fun pair member => proper.long pair (subset member),
    fun pair member => proper.locations pair (subset member),
    fun pair member => proper.values pair (subset member)⟩

namespace Runs

variable {done : List (Location × Slot)} {n : Nat}

theorem ty (runs : Runs t done t') : t'.ty = t.ty := by
  induction runs with
  | nil => rfl
  | cons first _ ih => exact ih.trans first.ty

/-- Whatever lies beside all locations reads as before. -/
theorem apart (runs : Runs t done t') (proper : Proper n done) (keyed : SlotKeyed t.slot)
    {other : Location} (others : other.Keyed)
    (beside : ∀ pair ∈ done, pair.1.covers other = false ∧ other.covers pair.1 = false)
    {slot : Slot} (read : at? other t.slot = .ok slot) : at? other t'.slot = .ok slot := by
  induction runs with
  | nil => exact read
  | cons first _ ih =>
    obtain ⟨⟨-, own, value⟩, properRest⟩ := proper.cons
    obtain ⟨here, later⟩ := List.forall_mem_cons.mp beside
    exact ih properRest (first.keyed keyed own value) later
      (first.apart keyed own others here.1 here.2 read)

/-- Nothing is taken away that is no deeper than the locations, and containers above them keep what
they declare. -/
theorem forward (runs : Runs t done t') (proper : Proper n done) (keyed : SlotKeyed t.slot)
    {other : Location} (others : other.Keyed) (short : other.length ≤ n) {slot : Slot}
    (read : at? other t.slot = .ok slot) :
    ∃ slot', at? other t'.slot = .ok slot' ∧ (other.length < n → shell slot' = shell slot) := by
  induction runs generalizing slot with
  | nil => exact ⟨slot, read, fun _ => rfl⟩
  | cons first _ ih =>
    obtain ⟨⟨long, own, value⟩, properRest⟩ := proper.cons
    rw [← long] at short
    obtain ⟨middle, reached, alike⟩ := first.forward keyed own others short read
    rw [long] at short alike
    obtain ⟨slot', kept, alike'⟩ :=
      ih properRest (first.keyed keyed own value) reached
    exact ⟨slot', kept, fun deep => (alike' deep).trans (alike deep)⟩

/-- What is declared at the depth of the locations stays declared. -/
theorem stays_declared (runs : Runs t done t') (proper : Proper n done) (keyed : SlotKeyed t.slot)
    (own : location.Keyed) (long : location.length = n) {known : Option Ty}
    (declared : t.declaredAt? location = .ok known) : t'.declaredAt? location = .ok known := by
  rcases List.eq_nil_or_concat location with rfl | ⟨front, step, rfl⟩
  · rw [← declared]
    exact congrArg (fun ty => Except.ok (some ty)) runs.ty
  · rw [List.concat_eq_append] at own long declared ⊢
    rw [declaredAt?_concat] at declared ⊢
    obtain ⟨parent, there, below⟩ := bind_eq_ok.mp declared
    have deep : front.length < n := by
      simp at long
      omega
    obtain ⟨parent', there', alike⟩ :=
      runs.forward proper keyed (Location.keyed_append.mp own).1 (Nat.le_of_lt deep) there
    rw [there', ok_bind, ← childTy?_shell, alike deep, childTy?_shell]
    exact below

/-- And nothing else comes to be declared there. -/
theorem declared (runs : Runs t done t') (proper : Proper n done) (long : location.length = n)
    {known : Option Ty} (after : t'.declaredAt? location = .ok known) :
    t.declaredAt? location = .ok known := by
  induction runs with
  | nil => exact after
  | cons first _ ih =>
    obtain ⟨⟨even, -, -⟩, properRest⟩ := proper.cons
    exact first.declared (long.trans even.symm) (ih properRest after)

/-- A location to which nothing was assigned reads as before. -/
theorem stays (runs : Runs t done t') (proper : Proper n done) (keyed : SlotKeyed t.slot)
    (own : location.Keyed) (long : location.length = n) (unassigned : location.lastTo done = none)
    {slot : Slot} (read : at? location t.slot = .ok slot) : at? location t'.slot = .ok slot := by
  refine runs.apart proper keyed own (fun pair member => ?_) read
  have even : pair.1.length = location.length := (proper.long pair member).trans long.symm
  have missed := Location.lastTo_eq_none.mp unassigned pair member
  have notBelow : pair.1.covers location = false := by simpa [Location.same, even] using missed
  refine ⟨notBelow, ?_⟩
  rw [Location.covers_comm even.symm own (proper.locations pair member)]
  exact notBelow

/-- A location reads back what was last assigned to it, cast to the type declared there. -/
theorem reads_back (runs : Runs t done t') (proper : Proper n done) (keyed : SlotKeyed t.slot)
    (own : location.Keyed) (long : location.length = n) (last : location.lastTo done = some new) :
    ∃ known x slot, t.declaredAt? location = .ok known ∧ castSlot known new = .ok x ∧
      at? location t'.slot = .ok slot ∧ sameSlot slot x = true := by
  induction runs with
  | nil => cases last
  | @cons t u t' other assigned rest first others ih =>
    obtain ⟨⟨otherLong, otherKeyed, value⟩, properRest⟩ := proper.cons
    have keyedNext := first.keyed keyed otherKeyed value
    have even : location.length = other.length := long.trans otherLong.symm
    cases later : location.lastTo rest with
    | some x =>
      have same : x = new := by simpa [Location.lastTo, later] using last
      rw [same] at later
      obtain ⟨known, x, slot, declared, cast, read, equal⟩ := ih properRest keyedNext later
      exact ⟨known, x, slot, first.declared even declared, cast, read, equal⟩
    | none =>
      simp [Location.lastTo, later] at last
      obtain ⟨same, rfl⟩ := last
      obtain ⟨known, x, slot, declared, cast, read, equal⟩ := first.reads_back keyed otherKeyed value
      refine ⟨known, x, slot, declaredAt?_congr keyed otherKeyed own same declared, cast, ?_, equal⟩
      exact others.stays properRest keyedNext own long later (at?_congr keyedNext otherKeyed own same read)

/-- What reads in the end and did not before is at an assigned location or below one, or is an empty
slot that fills a gap before one. -/
theorem fresh (runs : Runs t done t') (proper : Proper n done) (keyed : SlotKeyed t.slot)
    {other : Location} (others : other.Keyed) {slot : Slot} (read : at? other t'.slot = .ok slot) :
    (∃ old, at? other t.slot = .ok old) ∨ (∃ pair ∈ done, pair.1.covers other = true) ∨
      slot = none ∧ ∃ pair ∈ done, pair.1.Pads other := by
  induction runs with
  | nil => exact .inl ⟨slot, read⟩
  | @cons t u t' location assigned rest first runs ih =>
    obtain ⟨⟨long, own, value⟩, properRest⟩ := proper.cons
    have keyedNext := first.keyed keyed own value
    rcases ih properRest keyedNext read with ⟨middle, reached⟩ | ⟨pair, member, covered⟩ |
      ⟨empty, pair, member, pads⟩
    · rcases first.fresh keyed own others reached with before | covered | ⟨rfl, pads⟩
      · exact .inl before
      · exact .inr (.inl ⟨_, List.mem_cons_self, covered⟩)
      · by_cases later : ∃ pair ∈ rest, pair.1.covers other = true
        · obtain ⟨pair, member, covered⟩ := later
          exact .inr (.inl ⟨pair, List.mem_cons_of_mem _ member, covered⟩)
        · have beside : ∀ pair ∈ rest, pair.1.covers other = false ∧ other.covers pair.1 = false := by
            intro pair member
            have even : pair.1.length = other.length := by
              rw [properRest.long pair member, ← long, pads.length_eq]
            have notBelow : pair.1.covers other = false :=
              eq_false_of_ne_true fun covered => later ⟨pair, member, covered⟩
            refine ⟨notBelow, ?_⟩
            rw [Location.covers_comm even.symm others (properRest.locations pair member)]
            exact notBelow
          have kept := runs.apart properRest keyedNext others beside reached
          cases kept.symm.trans read
          exact .inr (.inr ⟨rfl, _, List.mem_cons_self, pads⟩)
    · exact .inr (.inl ⟨pair, List.mem_cons_of_mem _ member, covered⟩)
    · exact .inr (.inr ⟨empty, pair, List.mem_cons_of_mem _ member, pads⟩)

end Runs

end TypedValue
end Immediate
