import Immediate.Proofs.Editing.Addressing
/-! The lenient index. A reading takes the element that is there, or nothing, and a change addresses
the same slots. They are apart in how they go on: a reading keeps a single element single, and a change
goes on as from a stream. So a stream of indices behind a lenient one is spread over the element by a
reading, and goes in step with it in a change, which takes the first index only. A null parent counts as
one without the element in both, but a change reports it. -/
namespace Immediate

open Edit Outcome

namespace Value

private theorem drain_indexed {parent index : Slot} {operand : Operand Slot}
    (read : indexed parent index = .ok operand) : operand.drain.1 = [] := by
  unfold indexed at read
  split at read
  · split at read
    · split at read
      · cases read
        exact Stream.reports_ofList _
      · obtain ⟨position, -, taken⟩ := bind_eq_ok.mp read
        split at taken <;> cases taken
        rfl
    · split at read
      · cases read
        exact Stream.reports_ofList _
      · obtain ⟨position, -, taken⟩ := bind_eq_ok.mp read
        split at taken <;> cases taken
        rfl
    · obtain ⟨key, -, taken⟩ := bind_eq_ok.mp read
      split at taken <;> cases taken
      rfl
    · cases read
  · cases read

/-- A lenient index reads the element where it is there, and otherwise nothing. It never fails and has
nothing to report. -/
theorem reads_optionallyIndexed (parent index : Slot) :
    ∃ operand, optionallyIndexed parent index = .ok operand ∧ operand.drain.1 = [] ∧
      operand.drain.2.values = Operand.yields (indexed parent index) := by
  unfold optionallyIndexed
  cases read : indexed parent index with
  | ok operand => exact ⟨operand, rfl, drain_indexed read, Operand.values_drain operand⟩
  | error e => exact ⟨.spread [], rfl, rfl, rfl⟩

theorem yields_optionallyIndexed (parent index : Slot) :
    Operand.yields (optionallyIndexed parent index) = Operand.yields (indexed parent index) := by
  obtain ⟨operand, read, -, same⟩ := reads_optionallyIndexed parent index
  rw [read, ← same]
  exact (Operand.values_drain operand).symm

end Value

namespace Targets

/-! ### What follows a location -/

/-- A lenient index addresses what the plain one does, also where the last step may make something. -/
theorem next_optional (creating : Bool) (root : Slot) (location : Location) (index : Slot) :
    next creating root (location, .optional index) = next false root (location, .index index) := by
  unfold next found
  cases Value.at? location root with
  | error e => rfl
  | ok slot =>
    cases slot with
    | none => rfl
    | some parent =>
      simp only [ok_bind, Value.selectedSteps]
      cases Value.indexSteps false parent index <;> rfl

/-- The locations that follow from one with its selector lead to what the selector reads there, whether
it is lenient or not. -/
theorem reach_next {root : Slot} (keyed : Value.SlotKeyed root) (location : Location)
    (selector : Selector) :
    Value.Reach root (next false root (location, selector))
      (Operand.yields (do selector.read (← Value.at? location root))) := by
  have strictly (selector : Selector) (strict : ∀ index, selector ≠ .optional index) :
      Value.Reach root (next false root (location, selector))
        (Operand.yields (do selector.read (← Value.at? location root))) := by
    unfold next found
    cases there : Value.at? location root with
    | error e => exact .nil
    | ok slot =>
      simp only [ok_bind]
      have agrees := Value.agrees_selected (Value.keyed_at? keyed there) strict
      revert agrees
      generalize selector.read slot = reading
      generalize Value.selectedSteps false selector slot = finding
      intro agrees
      cases agrees with
      | failed => exact .nil
      | single leads => exact Value.reach_below there (.cons leads .nil)
      | many leads => exact Value.reach_below there leads
  cases selector with
  | optional index =>
    have plain := strictly (.index index) fun _ same => by cases same
    rw [next_optional]
    cases there : Value.at? location root with
    | error e => rwa [there] at plain
    | ok slot =>
      rw [there, ok_bind] at plain
      rw [ok_bind, Selector.read, Value.yields_optionallyIndexed]
      exact plain
  | _ => exact strictly _ fun _ same => by cases same

/-! ### The step of a lenient index -/

/-- A step in which every location finds something reports nothing. -/
theorem after_stepFrom {creating : Bool} {root : Slot} {reached : Targets}
    {pairs : List (Location × Selector)} (w : Workspace)
    (finds : ∀ pair ∈ pairs, ∃ given, found creating root pair.1 pair.2 = .ok given) :
    (stepFrom creating root reached pairs).after w = w := by
  induction pairs generalizing reached with
  | nil => rfl
  | cons pair rest ih =>
    obtain ⟨location, selector⟩ := pair
    obtain ⟨⟨given, there⟩, others⟩ := List.forall_mem_cons.mp finds
    have settled : (settle reached.isStream (found creating root location selector)).result w =
        .ok (some given) := by rw [there, result_settle]
    have quiet : (settle reached.isStream (found creating root location selector)).after w = w := by
      rw [there, after_settle]
    unfold found at settled quiet
    rw [stepFrom, after_bind, settled, quiet]
    exact ih others

/-! ### Reading on -/

/-- Locations lead to what has been read. They may be a stream where that is a single value, behind a
lenient index. -/
structure Meets (root : Slot) (targets : Targets) (evaluated : Evaluated) : Prop where
  reach : Value.Reach root targets.locations evaluated.values
  single : targets.isStream = false → ∃ slot, evaluated = .single slot

theorem LeadTo.meets {root : Slot} {targets : Targets} {evaluated : Evaluated}
    (leadTo : LeadTo root targets evaluated) : Meets root targets evaluated := by
  cases leadTo with
  | single there => exact ⟨.cons there .nil, fun _ => ⟨_, rfl⟩⟩
  | many reach => exact ⟨reach, nofun⟩

/-- What is no stream of locations leads to a single value. -/
theorem Meets.leadTo {root : Slot} {targets : Targets} {evaluated : Evaluated}
    (meets : Meets root targets evaluated) (single : targets.isStream = false) :
    LeadTo root targets evaluated := by
  obtain ⟨locations, isStream⟩ := targets
  cases single
  obtain ⟨slot, rfl⟩ := meets.single rfl
  obtain ⟨location, others, there, nothing, rfl⟩ := List.forall₂_cons_right_iff.mp meets.reach
  cases nothing
  exact .single there

/-- A location and its selector, with the slot there and the same selector. -/
def Aligned (root : Slot) (pair : Location × Selector) (source : Slot × Selector) : Prop :=
  Value.at? pair.1 root = .ok source.1 ∧ source.2 = pair.2

section Step
variable {root : Slot} {targets : Targets} {evaluated onward : Evaluated} {selectors : Selectors}

theorem aligned_zip {locations : List Location} {slots : List Slot} {several : List Selector}
    (reach : Value.Reach root locations slots) :
    List.Forall₂ (Aligned root) (locations.zip several) (slots.zip several) := by
  induction reach generalizing several with
  | nil => exact .nil
  | cons there _ ih =>
    cases several with
    | nil => exact .nil
    | cons selector rest => exact .cons ⟨there, rfl⟩ ih

/-- Locations and what has been read take their selectors alike, unless several are spread over a
single value that makes a stream of locations. -/
theorem aligned_pairUp (meets : Meets root targets evaluated)
    (inStep : ∀ several slot, selectors = .many several → evaluated = .single slot →
      targets.isStream = true → several.length ≤ 1) :
    List.Forall₂ (Aligned root) (targets.pairUp selectors) (selectors.sources evaluated) := by
  obtain ⟨locations, isStream⟩ := targets
  have reach := meets.reach
  cases selectors with
  | one selector =>
    refine List.forall₂_map_left_iff.mpr (List.forall₂_map_right_iff.mpr ?_)
    exact reach.imp fun location slot there => ⟨there, rfl⟩
  | many several =>
    cases isStream with
    | false =>
      obtain @⟨location, slot, there⟩ := meets.leadTo rfl
      have spread : pairUp ⟨[location], false⟩ (.many several) =
          several.map fun selector => (location, selector) := List.append_nil _
      rw [spread]
      refine List.forall₂_map_left_iff.mpr (List.forall₂_map_right_iff.mpr ?_)
      exact List.forall₂_same.mpr fun selector _ => ⟨there, rfl⟩
    | true =>
      cases evaluated with
      | many slots => exact aligned_zip reach
      | single slot =>
        have zipped : Selectors.sources (.many several) (.single slot) = [slot].zip several := by
          have few := inStep several slot rfl rfl rfl
          match several with
          | [] => rfl
          | [selector] => rfl
          | _ :: _ :: _ => simp at few
        rw [zipped]
        exact aligned_zip reach

/-- What is read is what the selectors yield. -/
theorem values_of_read (read : selectors.read evaluated = .ok onward) :
    onward.values = (selectors.sources evaluated).flatMap
      fun (slot, selector) => Operand.yields (selector.read slot) := by
  cases selectors with
  | many several =>
    cases evaluated <;> cases read <;> rfl
  | one selector =>
    cases evaluated with
    | many slots =>
      cases read
      rfl
    | single slot =>
      obtain ⟨operand, ran, rfl⟩ := map_eq_ok.mp read
      refine (Operand.values_drain operand).trans ?_
      simp [Selectors.sources, Evaluated.values, ran, Operand.yields]

/-- A single value is read from a single value by a single selector. -/
theorem one_of_read {child : Slot}
    (read : selectors.read evaluated = .ok (.single child)) :
    ∃ selector slot, selectors = .one selector ∧ evaluated = .single slot ∧
      selector.read slot = .ok (.single child) := by
  cases selectors with
  | many several => cases evaluated <;> cases read
  | one selector =>
    cases evaluated with
    | many slots => cases read
    | single slot =>
      obtain ⟨operand, ran, same⟩ := map_eq_ok.mp read
      cases operand with
      | many s => cases same
      | single child' =>
        cases same
        exact ⟨selector, slot, rfl, rfl, ran⟩

variable (keyed : Value.SlotKeyed root)
include keyed

theorem reach_of_aligned {pairs : List (Location × Selector)} {sources : List (Slot × Selector)}
    (aligned : List.Forall₂ (Aligned root) pairs sources) :
    Value.Reach root (pairs.flatMap (next false root))
      (sources.flatMap fun (slot, selector) => Operand.yields (selector.read slot)) := by
  refine List.rel_flatMap aligned fun pair source alike => ?_
  obtain ⟨location, selector⟩ := pair
  obtain ⟨slot, other⟩ := source
  obtain ⟨there, same⟩ := alike
  dsimp only at there same
  subst same
  have led := reach_next keyed location other
  rwa [there, ok_bind] at led

/-- One written step keeps locations and reading together. Where it makes a single value a stream of
locations, that was one before, or the step is lenient. -/
theorem meets_stepFrom (w : Workspace) (meets : Meets root targets evaluated)
    (inStep : ∀ several slot, selectors = .many several → evaluated = .single slot →
      targets.isStream = true → several.length ≤ 1)
    (read : selectors.read evaluated = .ok onward) :
    ∃ reached, (stepFrom false root ⟨[], targets.isStream || selectors.fans⟩
        (targets.pairUp selectors)).result w = .ok reached ∧ Meets root reached onward ∧
      (reached.isStream = true → ∀ child, onward = .single child →
        (targets.isStream = true ∧ ∃ slot, evaluated = .single slot) ∨
          ∃ index, selectors = .one (.optional index)) := by
  cases fans : targets.isStream || selectors.fans with
  | true =>
    refine ⟨_, stepFrom_of_stream .., ⟨?_, nofun⟩, ?_⟩
    · rw [values_of_read read]
      exact reach_of_aligned keyed (aligned_pairUp meets inStep)
    · rintro - child rfl
      obtain ⟨selector, slot, rfl, rfl, ran⟩ := one_of_read read
      cases stream : targets.isStream with
      | true => exact .inl ⟨rfl, slot, rfl⟩
      | false =>
        rw [stream, Bool.false_or] at fans
        by_contra other
        refine Selector.spreads_of_fans slot selector (fun index same => ?_) fans child ran
        exact other (.inr ⟨index, congrArg Selectors.one same⟩)
  | false =>
    obtain ⟨single, plain⟩ := Bool.or_eq_false_iff.mp fans
    have strict : selectors.Strict := by
      rintro selector member index rfl
      cases selectors with
      | many several => cases plain
      | one other =>
        cases List.mem_singleton.mp member
        cases plain
    have agree := agree_stepFrom w keyed (meets.leadTo single) strict
    rw [read, fans] at agree
    generalize (stepFrom false root ⟨[], false⟩ (targets.pairUp selectors)).result w = stepped at agree ⊢
    cases agree with
    | leads leadTo =>
      refine ⟨_, rfl, leadTo.meets, ?_⟩
      cases leadTo with
      | single there => nofun
      | many reach => exact fun _ _ same => by cases same

end Step

end Targets

namespace Path

variable {world : World} {w : Workspace} {p : Path} {t : TypedValue}

/-- Where a lenient index has led to a single value, no stream of several indices is spread over it. -/
def InStep (world : World) (w : Workspace) (p : Path) : Prop :=
  ∀ front a rest, p.accessors = front ++ a :: rest → (∃ code, .optionalIndex code ∈ front) →
    (∃ slot, ((⟨p.base, front⟩ : Path).read world).result w = .ok (.single slot)) →
    ∀ several, (Selectors.ofAccessor (world.behind ⟨p.base, front⟩) a).result w = .ok (.many several) →
      several.length ≤ 1

/-- Reading goes along the written steps from what the variable holds. -/
theorem read_of_find {front rest : List Accessor} (balanced : p.Balanced)
    (split : p.accessors = front ++ rest) (held : w.store.find? p.base = some t) :
    ((⟨p.base, front⟩ : Path).read world).result w =
      Operand.drained (Accessor.readAlong (w.store.context (world.behind ⟨p.base, []⟩))
        (.single t.slot) front) := by
  have loaded : (w.store.context world).load p.base = .ok t.slot := by
    simp only [Context.load, Store.context, held, Option.map_some]
  have own : (⟨p.base, front⟩ : Path).Balanced := fun a member =>
    balanced a (split ▸ List.mem_append_left rest member)
  rw [result_read, execute_code own, loaded, ok_bind]
  rfl

/-- A reading that gets on from some operand keeps the locations with it to its end. -/
theorem meets_follow {front rest : List Accessor} {target final : Operand Slot} {targets : Targets}
    (balanced : p.Balanced) (keyed : Value.SlotKeyed t.slot)
    (bounds : Accessor.SingleBoundsAlong (w.store.context (world.behind ⟨p.base, front⟩)) rest)
    (inStep : p.InStep world w)
    (held : w.store.find? p.base = some t) (split : p.accessors = front ++ rest)
    (led : Accessor.readAlong (w.store.context (world.behind ⟨p.base, []⟩)) (.single t.slot) front =
      .ok target)
    (onward : Accessor.readAlong (w.store.context (world.behind ⟨p.base, front⟩)) target rest =
      .ok final)
    (meets : Targets.Meets t.slot targets target.drain.2)
    (lenient : targets.isStream = true → ∀ slot, target.drain.2 = .single slot →
      ∃ code, .optionalIndex code ∈ front) :
    ∃ reached, (Targets.follow (world.behind ⟨p.base, front⟩) false t.slot targets rest).result w =
        .ok reached ∧
      Targets.Meets t.slot reached final.drain.2 := by
  induction rest generalizing front target targets with
  | nil =>
    cases onward
    exact ⟨targets, rfl, meets⟩
  | cons a rest ih =>
    obtain ⟨middle, read, later⟩ := bind_eq_ok.mp onward
    have step := Accessor.drained_readFrom bounds.1 target
    rw [read] at step
    obtain ⟨selectors, chosen, taken⟩ := bind_eq_ok.mp step.symm
    have few : ∀ several slot, selectors = .many several → target.drain.2 = .single slot →
        targets.isStream = true → several.length ≤ 1 := by
      rintro several slot rfl single stream
      refine inStep front a rest split (lenient stream slot single) ⟨slot, ?_⟩ several chosen
      rw [read_of_find balanced split held, led]
      exact congrArg Except.ok single
    obtain ⟨reached, stepped, meets', stays⟩ :=
      Targets.meets_stepFrom keyed w meets few taken
    have split' : p.accessors = (front ++ [a]) ++ rest := by rw [split, List.append_assoc]; rfl
    have led' : Accessor.readAlong (w.store.context (world.behind ⟨p.base, []⟩)) (.single t.slot)
        (front ++ [a]) = .ok middle := by
      rw [Accessor.readAlong_append, led, ok_bind]
      rw [world.behind_eq] at read
      exact bind_eq_ok.mpr ⟨middle, read, rfl⟩
    have along := world.behind_concat p.base front a
    obtain ⟨ended, others, meets''⟩ := ih (along ▸ bounds.2) split' led' (along ▸ later) meets'
        fun stream slot single => by
      rcases stays stream slot single with ⟨before, slot', single'⟩ | ⟨index, rfl⟩
      · obtain ⟨code, member⟩ := lenient before slot' single'
        exact ⟨code, List.mem_append_left _ member⟩
      · cases Selectors.gives_of_ofAccessor chosen _ List.mem_cons_self with
        | optional code => exact ⟨code, List.mem_append_right _ List.mem_cons_self⟩
    refine ⟨ended, ?_, meets''⟩
    rw [Targets.result_follow_cons, chosen, ok_bind, Bool.false_and, stepped, ok_bind, ← along]
    exact others

/-- The slots that a reading gets are those that a change addresses, in order. -/
theorem resolve_of_lenient_read {evaluated : Evaluated} (balanced : p.Balanced)
    (keyed : ∀ t, w.store.find? p.base = some t → Value.SlotKeyed t.slot)
    (bounds : p.SingleBounds (w.store.context world)) (inStep : p.InStep world w)
    (read : (p.read world).result w = .ok evaluated) :
    ∃ t targets, w.store.find? p.base = some t ∧ (p.resolve world false).result w = .ok targets ∧
      targets.locations.mapM (fun location => Value.at? location t.slot) = .ok evaluated.values := by
  cases held : w.store.find? p.base with
  | none =>
    have absent : (w.store.context world).load p.base = .error (.notFound p.base) := by
      simp only [Context.load, Store.context, held, Option.map_none]
    rw [result_read, execute_code balanced, absent] at read
    cases read
  | some t =>
    have whole : p.accessors = p.accessors ++ [] := (List.append_nil _).symm
    rw [read_of_find balanced whole held] at read
    obtain ⟨final, onward, rfl⟩ := map_eq_ok.mp read
    have start : Targets.LeadTo t.slot ⟨[[]], false⟩ (Operand.single t.slot).drain.2 := .single rfl
    have along : Accessor.SingleBoundsAlong (w.store.context (world.behind ⟨p.base, []⟩)) p.accessors :=
      bounds
    obtain ⟨reached, resolved, meets⟩ := meets_follow balanced (keyed t held) along inStep held
      (List.nil_append _).symm rfl onward start.meets fun stream => by cases stream
    refine ⟨t, reached, rfl, ?_, Value.mapM_of_reach meets.reach⟩
    rw [result_resolve, Store.peek_eq_ok.mpr held, ok_bind]
    exact resolved

/-! ### A lenient index on the way of a change -/

theorem run_resolve (world : World) (creating : Bool) (held : w.store.find? p.base = some t) :
    (p.resolve world creating).result w =
        (Targets.follow (world.behind ⟨p.base, []⟩) creating t.slot ⟨[[]], false⟩ p.accessors).result w ∧
      (p.resolve world creating).after w =
        (Targets.follow (world.behind ⟨p.base, []⟩) creating t.slot ⟨[[]], false⟩ p.accessors).after
          w := by
  have peeked := Store.peek_eq_ok.mpr held
  constructor
  · rw [result_resolve, peeked, ok_bind]
    rfl
  · simp only [resolve, after_bind, result_store, after_store, result_lift, after_lift, peeked]
    rfl

/-- How a change gets past a lenient index: nothing there ends it; it goes on, as from a stream, from the
slots that a reading by the same selectors reads at the same places; and there is nothing to report. What
is reported where a parent is null is left open. What is behind the lenient index, the last of the steps
that are gone, is evaluated behind their code. -/
structure Passes (world : World) (creating : Bool) (p : Path) (t : TypedValue) (w w' : Workspace)
    (pairs : List (Location × Selector)) (gone rest : List Accessor) (reached : Targets) : Prop where
  isStream : reached.isStream = true
  reach : Value.Reach t.slot reached.locations (pairs.flatMap fun (location, selector) =>
    Operand.yields (do selector.read (← Value.at? location t.slot)))
  result : (p.resolve world creating).result w =
    (Targets.follow (world.behind ⟨p.base, gone⟩) creating t.slot reached rest).result w'
  quiet : (∀ pair ∈ pairs, Value.at? pair.1 t.slot ≠ .ok none) → (p.resolve world creating).after w =
    (Targets.follow (world.behind ⟨p.base, gone⟩) creating t.slot reached rest).after w'

section Passing
variable {front rest : List Accessor} {code : Code} {targets : Targets}
  {selectors : Selectors}

/-- Where a change comes along a path, something is. -/
theorem there_of_resolve (keyed : Value.SlotKeyed t.slot) (held : w.store.find? p.base = some t)
    (resolved : (p.resolve world false).result w = .ok targets) :
    ∀ location ∈ targets.locations, ∃ slot, Value.at? location t.slot = .ok slot := by
  intro location member
  obtain ⟨long, selected⟩ := mem_of_resolve held resolved location member
  cases accessors : p.accessors with
  | nil =>
    rw [accessors] at long
    cases List.eq_nil_of_length_eq_zero long
    exact ⟨t.slot, rfl⟩
  | cons a rest =>
    obtain ⟨pair, leads⟩ := selected (accessors ▸ List.cons_ne_nil a rest)
    cases leads with
    | step there picked inside =>
      obtain ⟨child, below⟩ := Value.reads_of_selected (Value.keyed_at? keyed there) picked inside
      exact ⟨child, by rw [Value.at?_append, there, ok_bind, below]⟩

private theorem optional_of_pairUp {pair : Location × Selector}
    (chosen : (Selectors.ofAccessor world (.optionalIndex code)).result w = .ok selectors)
    (member : pair ∈ targets.pairUp selectors) : ∃ index, pair.2 = .optional index := by
  have gives := Selectors.gives_of_ofAccessor chosen pair.2 (Targets.pairUp_mem member).2
  generalize pair.2 = selector at gives ⊢
  cases gives with
  | optional _ index => exact ⟨index, rfl⟩

private theorem fans_of_optionalIndex
    (chosen : (Selectors.ofAccessor world (.optionalIndex code)).result w = .ok selectors) :
    selectors.fans = true := by
  rw [Selectors.result_optionalIndex] at chosen
  obtain ⟨evaluated, -, rfl⟩ := map_eq_ok.mp chosen
  cases evaluated <;> rfl

/-- A lenient index ends nothing, and where every parent is a value it reports nothing. -/
private theorem run_follow_optional (creating : Bool) (root : Slot)
    (chosen : (Selectors.ofAccessor world (.optionalIndex code)).result w = .ok selectors) :
    (Targets.follow world creating root targets (.optionalIndex code :: rest)).result w =
        (Targets.follow (world.later (Accessor.optionalIndex code).code.length) creating root
          ⟨(targets.pairUp selectors).flatMap (Targets.next false root), true⟩ rest).result
            ((Selectors.ofAccessor world (.optionalIndex code)).after w) ∧
      ((∀ pair ∈ targets.pairUp selectors, ∃ parent, Value.at? pair.1 root = .ok (some parent)) →
        (Targets.follow world creating root targets (.optionalIndex code :: rest)).after w =
          (Targets.follow (world.later (Accessor.optionalIndex code).code.length) creating root
            ⟨(targets.pairUp selectors).flatMap (Targets.next false root), true⟩ rest).after
              ((Selectors.ofAccessor world (.optionalIndex code)).after w)) := by
  have stepped (w : Workspace) : (Targets.stepFrom (creating && rest.isEmpty) root
      ⟨[], targets.isStream || selectors.fans⟩ (targets.pairUp selectors)).result w =
        .ok ⟨(targets.pairUp selectors).flatMap (Targets.next false root), true⟩ := by
    rw [fans_of_optionalIndex chosen, Bool.or_true, Targets.stepFrom_of_stream, List.nil_append]
    refine congrArg (fun locations => Except.ok (Targets.mk locations true)) ?_
    refine List.flatMap_congr fun pair member => ?_
    obtain ⟨location, selector⟩ := pair
    obtain ⟨index, same⟩ := optional_of_pairUp chosen member
    dsimp only at same
    rw [same, Targets.next_optional, Targets.next_optional]
  constructor
  · rw [Targets.follow, result_bind, chosen, ok_bind, result_bind, stepped, ok_bind]
    exact (Targets.looks_follow ..).result _ _ ((Targets.looks_stepFrom ..).store _)
  · intro parents
    rw [Targets.follow, after_bind, chosen]
    dsimp only
    rw [after_bind, stepped, Targets.after_stepFrom]
    intro pair member
    obtain ⟨parent, there⟩ := parents pair member
    obtain ⟨index, same⟩ := optional_of_pairUp chosen member
    rw [same, Targets.found, there, ok_bind, Value.selectedSteps]
    cases Value.indexSteps false parent index with
    | ok given => exact ⟨_, rfl⟩
    | error e => exact ⟨_, rfl⟩

/-- A change gets past each lenient index of its path. -/
theorem passes_of_optionalIndex (creating : Bool) (keyed : Value.SlotKeyed t.slot)
    (held : w.store.find? p.base = some t)
    (split : p.accessors = front ++ .optionalIndex code :: rest)
    (arrived : ((⟨p.base, front⟩ : Path).resolve world false).result w = .ok targets)
    (chosen : (Selectors.ofAccessor (world.behind ⟨p.base, front⟩) (.optionalIndex code)).result w =
      .ok selectors) :
    Passes world creating p t w
      ((Selectors.ofAccessor (world.behind ⟨p.base, front⟩) (.optionalIndex code)).after
        (((⟨p.base, front⟩ : Path).resolve world false).after w))
      (targets.pairUp selectors) (front ++ [.optionalIndex code]) rest
      ⟨(targets.pairUp selectors).flatMap (Targets.next false t.slot), true⟩ := by
  have there := there_of_resolve (p := ⟨p.base, front⟩) keyed held arrived
  have looks := looks_resolve world false ⟨p.base, front⟩
  obtain ⟨ran, left⟩ := run_resolve (p := p) world creating held
  obtain ⟨ranFront, leftFront⟩ := run_resolve (p := ⟨p.base, front⟩) world false held
  have later : (Selectors.ofAccessor (world.behind ⟨p.base, front⟩) (.optionalIndex code)).result
      (((⟨p.base, front⟩ : Path).resolve world false).after w) = .ok selectors :=
    ((Selectors.looks_ofAccessor ..).result _ _ (looks.store w)).trans chosen
  obtain ⟨result, quiet⟩ := run_follow_optional creating t.slot later
  rw [← world.behind_concat] at result quiet
  refine ⟨rfl, ?_, ?_, fun parents => ?_⟩
  · refine List.rel_flatMap (List.forall₂_same.mpr fun _ _ => rfl) ?_
    rintro ⟨location, selector⟩ _ rfl
    exact Targets.reach_next keyed location selector
  · rw [ran, split, Targets.follow_append, result_bind, ← ranFront, arrived, ok_bind, ← leftFront,
      ← world.behind_eq]
    exact result
  · rw [left, split, Targets.follow_append, after_bind, ← ranFront, arrived, ← leftFront,
      ← world.behind_eq]
    refine quiet fun pair member => ?_
    obtain ⟨slot, reads⟩ := there pair.1 (Targets.pairUp_mem member).1
    cases slot with
    | none => exact absurd reads (parents pair member)
    | some parent => exact ⟨parent, reads⟩

end Passing

/-- The lenient index in a reading and in a change. In both it takes the element where it is there and
otherwise nothing, and never fails. The slots that a reading gets are those that a change addresses,
if the bounds of ranges are single values and no stream of several indices comes where a lenient one has
led to a single value. -/
theorem lenient_alike {world : World} {w : Workspace} {p : Path} (balanced : p.Balanced)
    (keyed : ∀ t, w.store.find? p.base = some t → Value.SlotKeyed t.slot) :
    (∀ parent index, ∃ operand, Value.optionallyIndexed parent index = .ok operand ∧
      operand.drain.1 = [] ∧ operand.drain.2.values = Operand.yields (Value.indexed parent index)) ∧
    (∀ creating front code rest t targets selectors,
      p.accessors = front ++ .optionalIndex code :: rest → w.store.find? p.base = some t →
      ((⟨p.base, front⟩ : Path).resolve world false).result w = .ok targets →
      (Selectors.ofAccessor (world.behind ⟨p.base, front⟩) (.optionalIndex code)).result w =
        .ok selectors →
      ∃ reached, Passes world creating p t w
        ((Selectors.ofAccessor (world.behind ⟨p.base, front⟩) (.optionalIndex code)).after
          (((⟨p.base, front⟩ : Path).resolve world false).after w))
        (targets.pairUp selectors) (front ++ [.optionalIndex code]) rest reached) ∧
    (p.SingleBounds (w.store.context world) → p.InStep world w →
      ∀ evaluated, (p.read world).result w = .ok evaluated →
        ∃ t targets, w.store.find? p.base = some t ∧ (p.resolve world false).result w = .ok targets ∧
          targets.locations.mapM (fun location => Value.at? location t.slot) = .ok evaluated.values) := by
  refine ⟨Value.reads_optionallyIndexed, ?_, fun bounds inStep evaluated read => ?_⟩
  · intro creating front code rest t targets selectors split held arrived chosen
    exact ⟨_, passes_of_optionalIndex creating (keyed t held) held split arrived chosen⟩
  · exact resolve_of_lenient_read balanced keyed bounds inStep read

/-- In a list of lists a lenient index leads to the first list and a plain one on to its second element,
which a reading reads and a change addresses. -/
theorem lenient_alike_nested :
    let id : VariableId := ⟨"a", "b"⟩
    let number (n : Nat) : Slot := some (.integer .int n)
    let slot : Slot := some (.list none [some (.list none [number 1, number 2])])
    let w : Workspace := .of (Store.empty.put id ⟨.list none, slot⟩)
    let p : Path := ⟨id, [.optionalIndex [.constant (number 0)], .index [.constant (number 1)]]⟩
    (p.read .detached).result w = .ok (.single (number 2)) ∧
      (∃ reached, Passes .detached true p ⟨.list none, slot⟩ w w [([], .optional (number 0))]
        [.optionalIndex [.constant (number 0)]] [.index [.constant (number 1)]] reached) ∧
      ∃ targets, (p.resolve .detached false).result w = .ok targets ∧
        targets.locations.mapM (fun location => Value.at? location slot) = .ok [number 2] := by
  intro id number slot w p
  have read : (p.read .detached).result w = .ok (.single (number 2)) := rfl
  have codes : ∀ a ∈ p.accessors, ∀ code ∈ a.codes, ∃ n, code = [.constant (number n)] := by
    intro a member code inside
    rcases List.mem_pair.mp member with rfl | rfl <;> cases List.mem_singleton.mp inside
    · exact ⟨0, rfl⟩
    · exact ⟨1, rfl⟩
  have balanced : p.Balanced := by
    intro a member code inside
    obtain ⟨n, rfl⟩ := codes a member code inside
    rfl
  have keyed (t : TypedValue) (held : w.store.find? p.base = some t) : Value.SlotKeyed t.slot := by
    cases held
    decide
  have bounds : p.SingleBounds (w.store.context .detached) := ⟨trivial, trivial, trivial⟩
  have inStep : p.InStep .detached w := by
    intro front a rest split _ _ several chosen
    have member : a ∈ p.accessors := split ▸ List.mem_append_right front List.mem_cons_self
    obtain ⟨code, inside, s, executed, -⟩ := Selectors.exists_of_many chosen
    obtain ⟨n, rfl⟩ := codes a member code inside
    cases executed
  obtain ⟨-, passes, reads⟩ := lenient_alike balanced keyed
  refine ⟨read, passes true [] _ _ _ _ _ rfl rfl rfl rfl, ?_⟩
  obtain ⟨t, targets, held, resolved, looked⟩ := reads bounds inStep _ read
  cases held
  exact ⟨targets, resolved, looked⟩

/-- Where a lenient index is apart in a reading and in a change. Two indices in a stream behind it are
both read, but a change goes in step and takes the first. A reading takes the bounds of a range from a
stream, which a change refuses. A null parent is passed over silently by a reading, and is reported by a
change. -/
theorem lenient_apart :
    let id : VariableId := ⟨"a", "b"⟩
    let number (n : Nat) : Slot := some (.integer .int n)
    let slot : Slot := some (.list none [some (.list none [number 1, number 2])])
    let w : Workspace := .of (Store.empty.put id ⟨.list none, slot⟩)
    let zero : Code := [.constant (number 0)]
    let both : Code := [.constant (number 0), .constant (number 1), .binary .range]
    let spread : Path := ⟨id, [.optionalIndex zero, .index both]⟩
    let bounded : Path := ⟨id, [.optionalIndex zero, .range both [.constant (number 1)]]⟩
    let unset : Workspace := .of (Store.empty.put id ⟨.list none, none⟩)
    let lone : Path := ⟨id, [.optionalIndex zero]⟩
    ((spread.read .detached).result w = .ok (.many [number 1, number 2]) ∧
      ∃ targets, (spread.resolve .detached false).result w = .ok targets ∧
        targets.locations.mapM (fun location => Value.at? location slot) = .ok [number 1]) ∧
    ((bounded.read .detached).result w = .ok (.many [number 1, number 2, number 2]) ∧
      (bounded.resolve .detached false).result w = .error .manyToSingle) ∧
    (lone.read .detached).result unset = .ok (.many []) ∧
      ((lone.read .detached).after unset).reports = [] ∧
      (lone.resolve .detached false).result unset = .ok ⟨[], true⟩ ∧
      ((lone.resolve .detached false).after unset).reports = [.nullOperand .pathStep] := by
  intro id number slot w zero both spread bounded unset lone
  exact ⟨⟨rfl, ⟨[[.index 0, .index 0]], true⟩, rfl, rfl⟩, ⟨rfl, rfl⟩, rfl, rfl, rfl, rfl⟩

end Path
end Immediate
