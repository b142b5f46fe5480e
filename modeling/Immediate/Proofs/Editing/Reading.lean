import Mathlib.Data.List.Forall2
import Immediate.Proofs.Editing.Locations
import Immediate.Proofs.Editing.Resolving
import Immediate.Proofs.PathCode
import Immediate.Proofs.Streams
/-! A mutation addresses what a reading reads. Reading runs the code of a path under lazy fan-out and
resolving goes from location to location with errors passed over; what ties them together is a
reading that goes from values to values by the selectors of the resolver. -/
namespace Immediate

open Edit Outcome

/-- What a selector reads from a slot. No host is asked for it. -/
def Selector.read : Selector → Slot → Except EvalError (Operand Slot)
  | .all, slot => Value.allContents slot
  | .index i, slot => Value.indexed slot i
  | .optional i, slot => Value.optionallyIndexed slot i
  | .range first last, slot => Value.rangeIndexed slot first last
  | .entryKey, slot => Builtin.key.apply .detached [slot]
  | .entryValue, slot => Builtin.value.apply .detached [slot]

namespace Value

/-- Steps lead from a slot to these slots, one each. -/
def Leads (slot : Slot) (steps : List Step) (slots : List Slot) : Prop :=
  List.Forall₂ (fun step child => at? [step] slot = .ok child) steps slots

/-- What is read from a slot and the steps that are selected there agree: both fail, or the steps
lead to what is read, and form a stream if that is one. -/
inductive Agrees (slot : Slot) :
    Except EvalError (Operand Slot) → Except EvalError (List Step × Bool) → Prop where
  | failed {e e' : EvalError} : Agrees slot (.error e) (.error e')
  | single {step : Step} {child : Slot} (leads : at? [step] slot = .ok child) :
    Agrees slot (.ok (.single child)) (.ok ([step], false))
  | many {s : Stream Slot} {steps : List Step} (leads : Leads slot steps s.values) :
    Agrees slot (.ok (.many s)) (.ok (steps, true))

theorem leads_map {α : Type} {slot : Slot} {things : List α} (step : α → Step) (child : α → Slot)
    (each : ∀ a ∈ things, at? [step a] slot = .ok (child a)) :
    Leads slot (things.map step) (things.map child) := by
  unfold Leads
  rw [List.forall₂_map_left_iff, List.forall₂_map_right_iff, List.forall₂_same]
  exact each

theorem exists_of_mem_leads {slot child : Slot} {steps : List Step} {slots : List Slot}
    (leads : Leads slot steps slots) (member : child ∈ slots) :
    ∃ step ∈ steps, at? [step] slot = .ok child := by
  induction leads with
  | nil => cases member
  | @cons step first steps slots there _ ih =>
    rcases List.mem_cons.mp member with rfl | later
    · exact ⟨step, List.mem_cons_self, there⟩
    · obtain ⟨other, inside, read⟩ := ih later
      exact ⟨other, List.mem_cons_of_mem _ inside, read⟩

/-- A list or an iterator, as what it makes of its elements. -/
inductive Sequence : (List Slot → Value) → Prop where
  | list (element : Option Ty) : Sequence (.list element)
  | iterator (element : Option Ty) : Sequence (.iterator element)

/-- That the positions of a slot lead to some items, as in a list or an iterator. -/
def Holds (slot : Slot) (items : List Slot) : Prop :=
  ∀ i item, items[i]? = some item → at? [.index i] slot = .ok item

theorem holds_list (element : Option Ty) (items : List Slot) :
    Holds (some (.list element items)) items :=
  fun _ _ found => at?_step_eq_ok.mpr ⟨_, rfl, .listItem found⟩

theorem holds_iterator (element : Option Ty) (items : List Slot) :
    Holds (some (.iterator element items)) items :=
  fun _ _ found => at?_step_eq_ok.mpr ⟨_, rfl, .iteratorItem found⟩

/-- Consecutive positions lead to consecutive items. -/
theorem leads_positionSteps {slot : Slot} {items : List Slot} (holds : Holds slot items)
    {start stop : Nat} (within : stop ≤ items.length) :
    Leads slot (positionSteps start stop) ((items.take stop).drop start) := by
  have taken : (List.range stop).map (fun i => (items[i]?).getD none) = items.take stop := by
    refine List.ext_getElem (by simp [within]) fun i inside _ => ?_
    have inItems : i < items.length := by
      simp only [List.length_map, List.length_range] at inside
      omega
    simp [List.getElem?_eq_getElem inItems]
  rw [← taken, ← List.map_drop]
  refine leads_map _ _ fun i member => ?_
  have inItems : i < items.length := by
    have := List.mem_range.mp (List.mem_of_mem_drop member)
    omega
  rw [List.getElem?_eq_getElem inItems]
  exact holds i _ (List.getElem?_eq_getElem inItems)

/-- The positions that a pattern selects lead to the items that it selects. -/
theorem leads_selected {slot : Slot} {items : List Slot} (holds : Holds slot items)
    (selects : Slot → Bool) :
    Leads slot ((items.zipIdx.filter fun (item, _) => selects item).map fun (_, i) => .index i)
      (items.filter selects) := by
  have kept : items.filter selects =
      (items.zipIdx.filter fun (item, _) => selects item).map (·.1) := by
    have filtered := List.filter_map (f := Prod.fst) (p := selects) (l := items.zipIdx)
    rw [List.zipIdx_map_fst] at filtered
    exact filtered
  rw [kept]
  refine leads_map _ _ fun pair member => ?_
  obtain ⟨item, i⟩ := pair
  have found := List.mem_zipIdx_iff_getElem?.mp (List.mem_filter.mp member).1
  exact holds i item found

/-! ### What is read and what is selected -/

theorem agrees_spread {slot : Slot} {steps : List Step} {slots : List Slot}
    (leads : Leads slot steps slots) : Agrees slot (.ok (.spread slots)) (.ok (steps, true)) := by
  refine .many ?_
  rw [Stream.values_ofList]
  exact leads

private theorem agrees_all {slot : Slot} (keyed : SlotKeyed slot) :
    Agrees slot (allContents slot) (selectedSteps false .all slot) := by
  have sequence {items : List Slot} (holds : Holds slot items) :
      Agrees slot (.ok (.spread items)) (.ok (positionSteps 0 items.length, true)) := by
    have leads : Leads slot (positionSteps 0 items.length) ((items.take items.length).drop 0) :=
      leads_positionSteps holds (Nat.le_refl _)
    rw [List.take_length, List.drop_zero] at leads
    exact agrees_spread leads
  cases slot with
  | none => exact .failed
  | some v =>
    cases v with
    | list element items => exact sequence (holds_list element items)
    | iterator element items => exact sequence (holds_iterator element items)
    | map keyTy valueTy pairs =>
      have apart := keyed_map_iff.mp (keyed _ rfl)
      refine agrees_spread (leads_map _ _ fun pair member => ?_)
      exact at?_step_eq_ok.mpr ⟨_, rfl, .mapValue (lookup_of_mem apart member)⟩
    | _ => exact .failed

private theorem agrees_position {slot : Slot} {items : List Slot} (holds : Holds slot items)
    (index : Value) :
    Agrees slot
      (do
        let position ← listPosition index items.length
        match items[position]? with
        | some item => return .single item
        | none => throw (.outOfBounds position items.length))
      (do
        let i ← listPosition index items.length
        if items.length ≤ i && !false then
          throw (.outOfBounds i items.length)
        return ([.index i], false)) := by
  cases listPosition index items.length with
  | error e => exact .failed
  | ok i =>
    simp only [ok_bind]
    by_cases inside : i < items.length
    · have found := List.getElem?_eq_getElem inside
      have unguarded : (decide (items.length ≤ i) && !false) = false := by simpa using inside
      rw [found, unguarded]
      exact .single (holds i _ found)
    · have outside := Nat.le_of_not_lt inside
      have guarded : (decide (items.length ≤ i) && !false) = true := by simpa using outside
      rw [List.getElem?_eq_none outside, guarded]
      exact .failed

private theorem agrees_index (slot index : Slot) :
    Agrees slot (indexed slot index) (selectedSteps false (.index index) slot) := by
  cases slot with
  | none => cases index <;> exact .failed
  | some parent =>
    cases index with
    | none => exact .failed
    | some v =>
      cases parent with
      | list element items =>
        have holds := holds_list element items
        cases v with
        | map _ _ pattern => exact agrees_spread (leads_selected holds (isSelectedBy pattern))
        | _ => exact agrees_position holds _
      | iterator element items =>
        have holds := holds_iterator element items
        cases v with
        | map _ _ pattern => exact agrees_spread (leads_selected holds (isSelectedBy pattern))
        | _ => exact agrees_position holds _
      | map keyTy valueTy pairs =>
        simp only [indexed, selectedSteps, indexSteps]
        cases mapKey keyTy v with
        | error e => exact .failed
        | ok key =>
          simp only [ok_bind]
          cases found : lookup pairs key with
          | none => exact .failed
          | some child => exact .single (at?_step_eq_ok.mpr ⟨_, rfl, .mapValue found⟩)
      | _ => exact .failed

theorem stop_le_length {first last : Value} {length start stop : Nat}
    (cut : rangeWithin first last length = .ok (start, stop)) : stop ≤ length := by
  unfold rangeWithin at cut
  split at cut
  · cases cut
  · split at cut
    · cases cut
    · dsimp only at cut
      split at cut
      · cases cut
        exact Nat.zero_le length
      · cases cut
        omega

private theorem agrees_range (slot first last : Slot) :
    Agrees slot (rangeIndexed slot first last) (selectedSteps false (.range first last) slot) := by
  have sequence {items : List Slot} (holds : Holds slot items) (low high : Value) :
      Agrees slot
        (do
          let bounds ← rangeWithin low high items.length
          return .spread ((items.take bounds.2).drop bounds.1))
        (do
          let bounds ← rangeWithin low high items.length
          return (positionSteps bounds.1 bounds.2, true)) := by
    cases cut : rangeWithin low high items.length with
    | error e => exact .failed
    | ok bounds =>
      obtain ⟨start, stop⟩ := bounds
      exact agrees_spread (leads_positionSteps holds (stop_le_length cut))
  cases slot with
  | none => cases first <;> cases last <;> exact .failed
  | some parent =>
    cases first with
    | none => cases last <;> exact .failed
    | some low =>
      cases last with
      | none => exact .failed
      | some high =>
        cases parent with
        | list element items => exact sequence (holds_list element items) low high
        | iterator element items => exact sequence (holds_iterator element items) low high
        | _ => exact .failed

private theorem agrees_half (slot : Slot) :
    Agrees slot (Builtin.key.apply .detached [slot]) (selectedSteps false .entryKey slot) ∧
      Agrees slot (Builtin.value.apply .detached [slot]) (selectedSteps false .entryValue slot) := by
  cases slot with
  | none => exact ⟨.failed, .failed⟩
  | some v =>
    cases v with
    | entry keyTy valueTy key value =>
      exact ⟨.single (at?_step_eq_ok.mpr ⟨_, rfl, .entryKey⟩),
        .single (at?_step_eq_ok.mpr ⟨_, rfl, .entryValue⟩)⟩
    | _ => exact ⟨.failed, .failed⟩

/-- Whatever a selector reads, the steps it selects lead there. Only the lenient index is apart: it
always selects a stream. -/
theorem agrees_selected {selector : Selector} {slot : Slot} (keyed : SlotKeyed slot)
    (strict : ∀ index, selector ≠ .optional index) :
    Agrees slot (selector.read slot) (selectedSteps false selector slot) := by
  cases selector with
  | all => exact agrees_all keyed
  | index i => exact agrees_index slot i
  | optional i => exact absurd rfl (strict i)
  | range first last => exact agrees_range slot first last
  | entryKey => exact (agrees_half slot).1
  | entryValue => exact (agrees_half slot).2

private theorem reads_of_agrees {slot : Slot} {reading : Except EvalError (Operand Slot)}
    {steps : List Step} {isStream : Bool} {step : Step}
    (agrees : Agrees slot reading (.ok (steps, isStream))) (member : step ∈ steps) :
    ∃ child, at? [step] slot = .ok child := by
  have led {slots : List Slot} (leads : Leads slot steps slots) :
      ∃ child, at? [step] slot = .ok child := by
    obtain ⟨i, inside, rfl⟩ := List.getElem_of_mem member
    have within : i < slots.length := leads.length_eq ▸ inside
    exact ⟨slots[i], (List.forall₂_iff_get.mp leads).2 i inside within⟩
  cases agrees with
  | single leads => exact led (.cons leads .nil)
  | many leads => exact led leads

/-- Every step that is selected leads to a slot that is there. -/
theorem reads_of_selected {selector : Selector} {slot : Slot} {steps : List Step} {isStream : Bool}
    {step : Step} (keyed : SlotKeyed slot)
    (selected : selectedSteps false selector slot = .ok (steps, isStream)) (member : step ∈ steps) :
    ∃ child, at? [step] slot = .ok child := by
  have strictly {selector : Selector} {isStream : Bool}
      (selected : selectedSteps false selector slot = .ok (steps, isStream))
      (strict : ∀ index, selector ≠ .optional index) : ∃ child, at? [step] slot = .ok child := by
    have agrees := agrees_selected keyed strict
    rw [selected] at agrees
    exact reads_of_agrees agrees member
  cases selector with
  | optional index =>
    cases slot with
    | none => cases selected
    | some parent =>
      simp only [selectedSteps] at selected
      split at selected
      · rename_i isFound
        cases selected
        have indexed : selectedSteps false (.index index) (some parent) = _ := isFound
        exact strictly indexed fun _ same => by cases same
      · cases selected
        cases member
  | _ => exact strictly selected fun _ same => by cases same

end Value

/-! ### Reading by selectors -/

/-- The selectors that a written step may evaluate to. -/
inductive Accessor.Gives : Accessor → Selector → Prop where
  | all : Gives .allContents .all
  | index (code : Code) (slot : Slot) : Gives (.index code) (.index slot)
  | optional (code : Code) (slot : Slot) : Gives (.optionalIndex code) (.optional slot)
  | range (first last : Code) (low high : Slot) : Gives (.range first last) (.range low high)
  | entryKey : Gives .entryKey .entryKey
  | entryValue : Gives .entryValue .entryValue

namespace Selectors

/-- The slots that are read from, each with its selector. -/
def sources : Selectors → Evaluated → List (Slot × Selector)
  | .one selector, evaluated => evaluated.values.map fun slot => (slot, selector)
  | .many selectors, .single slot => selectors.map fun selector => (slot, selector)
  | .many selectors, .many slots => slots.zip selectors

/-- What selectors read from what has been evaluated. -/
def read : Selectors → Evaluated → Except EvalError Evaluated
  | .one selector, .single slot => Operand.drained (selector.read slot)
  | selectors, evaluated =>
    .ok (.many ((selectors.sources evaluated).flatMap fun (slot, selector) =>
      Operand.yields (selector.read slot)))

/-! The evaluation of a written step, as a computation without state. -/

section Results
variable (world : World) (w : Workspace)

theorem result_index (code : Code) :
    (ofAccessor world (.index code)).result w = ofIndex .index <$> (Edit.run world code).result w := by
  refine (result_bind_of_looks (looks_run world code) (fun _ => Looks.pure _) w).trans ?_
  cases (Edit.run world code).result w <;> rfl

theorem result_optionalIndex (code : Code) :
    (ofAccessor world (.optionalIndex code)).result w =
      ofIndex .optional <$> (Edit.run world code).result w := by
  refine (result_bind_of_looks (looks_run world code) (fun _ => Looks.pure _) w).trans ?_
  cases (Edit.run world code).result w <;> rfl

theorem result_range (first last : Code) :
    (ofAccessor world (.range first last)).result w = (do
      let low ← (← first.execute (w.store.context world)).single?
      let high ← (← last.execute ((w.store.context world).later first.length)).single?
      return .one (.range low high)) := by
  refine (result_bind_of_looks (looks_context world) (fun context => ?_) w).trans ?_
  · exact (Looks.lift _).bind fun _ => (Looks.lift _).bind fun _ => (Looks.lift _).bind fun _ =>
      (Looks.lift _).bind fun _ => Looks.pure _
  · simp only [result_lift_bind]
    rfl

end Results

/-- Every selector that a written step evaluates to is one of its kind. -/
theorem gives_of_ofAccessor {world : World} {w : Workspace} {a : Accessor} {selectors : Selectors}
    (chosen : (ofAccessor world a).result w = .ok selectors) :
    ∀ selector ∈ selectors.each, a.Gives selector := by
  have indexed {make : Slot → Selector} (gives : ∀ slot, a.Gives (make slot)) (evaluated : Evaluated) :
      ∀ selector ∈ (Selectors.ofIndex make evaluated).each, a.Gives selector := by
    intro selector member
    cases evaluated with
    | single slot =>
      cases List.mem_singleton.mp member
      exact gives slot
    | many slots =>
      obtain ⟨slot, -, rfl⟩ := List.mem_map.mp member
      exact gives slot
  cases a with
  | allContents | entryKey | entryValue =>
    cases chosen
    intro selector member
    cases List.mem_singleton.mp member
    constructor
  | index code =>
    rw [result_index] at chosen
    obtain ⟨evaluated, -, rfl⟩ := map_eq_ok.mp chosen
    exact indexed (.index code) evaluated
  | optionalIndex code =>
    rw [result_optionalIndex] at chosen
    obtain ⟨evaluated, -, rfl⟩ := map_eq_ok.mp chosen
    exact indexed (.optional code) evaluated
  | range first last =>
    rw [result_range] at chosen
    obtain ⟨first, -, chosen⟩ := bind_eq_ok.mp chosen
    obtain ⟨low, -, chosen⟩ := bind_eq_ok.mp chosen
    obtain ⟨last, -, chosen⟩ := bind_eq_ok.mp chosen
    obtain ⟨high, -, chosen⟩ := bind_eq_ok.mp chosen
    cases chosen
    intro selector member
    cases List.mem_singleton.mp member
    exact .range ..

/-- Several selectors come of an index that is a stream of as many values. -/
theorem exists_of_many {world : World} {w : Workspace} {a : Accessor} {several : List Selector}
    (chosen : (ofAccessor world a).result w = .ok (.many several)) :
    ∃ code ∈ a.codes, ∃ s, code.execute (w.store.context world) = .ok (.many s) ∧
      several.length = s.values.length := by
  have indexed {code : Code} (make : Slot → Selector) {evaluated : Evaluated} (listed : code ∈ a.codes)
      (run : (Edit.run world code).result w = .ok evaluated)
      (same : ofIndex make evaluated = .many several) :
      ∃ code ∈ a.codes, ∃ s, code.execute (w.store.context world) = .ok (.many s) ∧
        several.length = s.values.length := by
    rw [result_run] at run
    obtain ⟨operand, executed, rfl⟩ := map_eq_ok.mp run
    cases operand with
    | single slot => cases same
    | many s =>
      cases same
      exact ⟨code, listed, s, executed, List.length_map ..⟩
  cases a with
  | allContents | entryKey | entryValue => cases chosen
  | index code =>
    rw [result_index] at chosen
    obtain ⟨evaluated, run, same⟩ := map_eq_ok.mp chosen
    exact indexed .index List.mem_cons_self run same
  | optionalIndex code =>
    rw [result_optionalIndex] at chosen
    obtain ⟨evaluated, run, same⟩ := map_eq_ok.mp chosen
    exact indexed .optional List.mem_cons_self run same
  | range first last =>
    rw [result_range] at chosen
    obtain ⟨first, -, chosen⟩ := bind_eq_ok.mp chosen
    obtain ⟨low, -, chosen⟩ := bind_eq_ok.mp chosen
    obtain ⟨last, -, chosen⟩ := bind_eq_ok.mp chosen
    obtain ⟨high, -, chosen⟩ := bind_eq_ok.mp chosen
    cases chosen

end Selectors

namespace Accessor

/-- The bounds of a range, if they can be evaluated, are single values. -/
def SingleBounds (context : Context) : Accessor → Prop
  | .range first last => (∀ s, first.execute context ≠ .ok (.many s)) ∧
      ∀ s, last.execute (context.later first.length) ≠ .ok (.many s)
  | _ => True

/-- The bounds of ranges among steps are single values, each range coming behind the code of the steps
before it. -/
def SingleBoundsAlong (context : Context) : List Accessor → Prop
  | [] => True
  | a :: rest => a.SingleBounds context ∧ SingleBoundsAlong (context.later a.code.length) rest

/-- Fanning an operation out over an evaluated target is reading by the selector that stands for
it. -/
private theorem read_one (selector : Selector) (evaluated : Evaluated)
    (operation : Slot → Except EvalError (Operand Slot))
    (same : ∀ v, selector.read v = operation v) :
    (match evaluated with
      | .single v => Operand.drained (operation v)
      | .many vs => .ok (.many (vs.flatMap fun v => Operand.yields (operation v)))) =
      (Selectors.one selector).read evaluated := by
  cases evaluated with
  | single v => exact congrArg Operand.drained (same v).symm
  | many vs =>
    simp only [Selectors.read, Selectors.sources, Evaluated.values, List.flatMap_map, same]

private theorem drained_one (target : Operand Slot) (selector : Selector)
    (operation : List Slot → Except EvalError (Operand Slot))
    (same : ∀ v, selector.read v = operation [v]) :
    Operand.drained (Operand.fanOut (fun _ => operation) [target]) =
      (Selectors.one selector).read target.drain.2 :=
  (Operand.drained_fanOut_one operation target).trans
    (read_one selector target.drain.2 (fun v => operation [v]) same)

private theorem drained_index (world : World) (w : Workspace) (code : Code) (target : Operand Slot)
    (make : Slot → Selector) (operation : List Slot → Except EvalError (Operand Slot))
    (same : ∀ v i, (make i).read v = operation [v, i]) :
    Operand.drained (do
        Operand.fanOut (fun _ => operation) [target, ← code.execute (w.store.context world)]) =
      (do
        let selectors ← Selectors.ofIndex make <$> (Edit.run world code).result w
        selectors.read target.drain.2) := by
  rw [result_run]
  cases code.execute (w.store.context world) with
  | error e => rfl
  | ok index =>
    change Operand.drained (Operand.fanOut (fun _ => operation) [target, index]) =
      (Selectors.ofIndex make index.drain.2).read target.drain.2
    rw [Operand.drained_fanOut_two]
    cases index.drain.2 with
    | single i =>
      rw [Selectors.ofIndex, ← read_one (make i) _ (fun v => operation [v, i]) fun v => same v i]
      cases target.drain.2 <;> rfl
    | many indices =>
      cases target.drain.2 with
      | single v =>
        simp only [Selectors.ofIndex, Selectors.read, Selectors.sources, List.flatMap_map, same]
      | many vs =>
        simp only [Selectors.ofIndex, Selectors.read, Selectors.sources, List.zip_map_right,
          List.flatMap_map, Prod.map, id_eq, same]

/-- What a step reads, evaluated, is what its selectors read from the evaluated target. -/
theorem drained_readFrom {world : World} {w : Workspace} {a : Accessor}
    (bounds : a.SingleBounds (w.store.context world)) (target : Operand Slot) :
    Operand.drained (a.readFrom (w.store.context world) target) = (do
      let selectors ← (Selectors.ofAccessor world a).result w
      selectors.read target.drain.2) := by
  cases a with
  | allContents => exact drained_one target .all _ fun _ => rfl
  | entryKey => exact drained_one target .entryKey _ fun _ => rfl
  | entryValue => exact drained_one target .entryValue _ fun _ => rfl
  | index code =>
    rw [Selectors.result_index]
    exact drained_index world w code target .index _ fun _ _ => rfl
  | optionalIndex code =>
    rw [Selectors.result_optionalIndex]
    exact drained_index world w code target .optional _ fun _ _ => rfl
  | range first last =>
    obtain ⟨lowSingle, highSingle⟩ := bounds
    rw [readFrom, Selectors.result_range]
    generalize first.execute (w.store.context world) = low at lowSingle ⊢
    generalize last.execute ((w.store.context world).later first.length) = high at highSingle ⊢
    cases low with
    | error e => rfl
    | ok low =>
      cases low with
      | many s => exact absurd rfl (lowSingle s)
      | single low =>
        cases high with
        | error e => rfl
        | ok high =>
          cases high with
          | many s => exact absurd rfl (highSingle s)
          | single high =>
            exact (Operand.drained_fanOut_bounds _ target low high).trans
              (read_one (.range low high) _ _ fun _ => rfl)

end Accessor
end Immediate
