import Immediate.Editing.Resolve
import Immediate.Proofs.Editing.Looking
import Immediate.Proofs.Outcomes
/-! Where a path leads. Resolving only looks; every location it gives has one step for each written
one, and its last step was selected below a slot that is there. -/
namespace Immediate

open Edit Outcome

namespace Selectors

theorem looks_ofAccessor (world : World) (accessor : Accessor) : Looks (ofAccessor world accessor) := by
  cases accessor with
  | allContents | entryKey | entryValue => exact Looks.pure _
  | index code | optionalIndex code => exact (looks_run world code).bind fun _ => Looks.pure _
  | range first last =>
    refine (looks_context world).bind fun context => ?_
    exact (Looks.lift _).bind fun _ => (Looks.lift _).bind fun _ =>
      (Looks.lift _).bind fun _ => (Looks.lift _).bind fun _ => Looks.pure _

end Selectors

namespace Targets

theorem looks_stepFrom (creating : Bool) (root : Slot) (reached : Targets)
    (pairs : List (Location × Selector)) : Looks (stepFrom creating root reached pairs) := by
  induction pairs generalizing reached with
  | nil => exact Looks.pure reached
  | cons pair rest ih =>
    refine (looks_settle reached.isStream _).bind fun found => ?_
    cases found with
    | none => exact ih reached
    | some found => exact ih _

theorem looks_follow (world : World) (creating : Bool) (root : Slot) (targets : Targets)
    (accessors : List Accessor) : Looks (follow world creating root targets accessors) := by
  induction accessors generalizing world targets with
  | nil => exact Looks.pure targets
  | cons accessor rest ih =>
    exact (Selectors.looks_ofAccessor world accessor).bind fun _ =>
      (looks_stepFrom _ _ _ _).bind fun _ => ih _ _

/-- The steps that a selector gives below a location. -/
def found (creating : Bool) (root : Slot) (location : Location) (selector : Selector) :
    Except EvalError (List Step × Bool) := do
  Value.selectedSteps creating selector (← Value.at? location root)

/-- The locations one step on, and whether they form a stream. -/
def further (reached : Targets) (location : Location) (steps : List Step) (isStream : Bool) :
    Targets :=
  ⟨reached.locations ++ steps.map (fun step => location ++ [step]), reached.isStream || isStream⟩

theorem result_stepFrom_cons (creating : Bool) (root : Slot) (reached : Targets)
    (location : Location) (selector : Selector) (rest : List (Location × Selector))
    (w : Workspace) :
    (stepFrom creating root reached ((location, selector) :: rest)).result w =
      match found creating root location selector with
      | .ok (steps, isStream) =>
        (stepFrom creating root (reached.further location steps isStream) rest).result w
      | .error e =>
        if reached.isStream then (stepFrom creating root reached rest).result w else .error e := by
  have unfolded : (stepFrom creating root reached ((location, selector) :: rest)).result w =
      (settle reached.isStream (found creating root location selector)).result w >>= fun found =>
        found.elim ((stepFrom creating root reached rest).result w) fun found =>
          (stepFrom creating root (reached.further location found.1 found.2) rest).result w := by
    refine (result_bind_of_looks (looks_settle _ _) (fun found => ?_) w).trans ?_
    · cases found with
      | none => exact looks_stepFrom ..
      | some found => exact looks_stepFrom ..
    · refine congrArg _ (funext fun found => ?_)
      cases found <;> rfl
  rw [unfolded, result_settle]
  cases found creating root location selector with
  | ok found => rfl
  | error e => cases reached.isStream <;> rfl

theorem result_follow_cons (world : World) (creating : Bool) (root : Slot) (targets : Targets)
    (accessor : Accessor) (rest : List Accessor) (w : Workspace) :
    (follow world creating root targets (accessor :: rest)).result w = (do
      let selectors ← (Selectors.ofAccessor world accessor).result w
      let reached ← (stepFrom (creating && rest.isEmpty) root
        ⟨[], targets.isStream || selectors.fans⟩ (targets.pairUp selectors)).result w
      (follow (world.later accessor.code.length) creating root reached rest).result w) := by
  refine (result_bind_of_looks (Selectors.looks_ofAccessor world accessor) (fun selectors => ?_)
    w).trans (congrArg _ (funext fun selectors => ?_))
  · exact (looks_stepFrom _ _ _ _).bind fun _ => looks_follow _ _ _ _ _
  · exact result_bind_of_looks (looks_stepFrom _ _ _ _) (fun _ => looks_follow _ _ _ _ _) w

/-- Following a path goes through each of its places, and goes on from there at the moments behind the
code of what was followed. -/
theorem follow_append (world : World) (creating : Bool) (root : Slot) (targets : Targets)
    (front : List Accessor) (a : Accessor) (rest : List Accessor) :
    follow world creating root targets (front ++ a :: rest) =
      follow world false root targets front >>= fun middle =>
        follow (world.later (front.flatMap Accessor.code).length) creating root middle (a :: rest) := by
  induction front generalizing world targets with
  | nil =>
    rw [List.flatMap_nil, List.length_nil, World.later_zero]
    exact (pure_bind _ _).symm
  | cons first front ih =>
    have onward : (creating && (front ++ a :: rest).isEmpty) = (false && front.isEmpty) := by simp
    rw [List.cons_append, follow, follow, onward]
    simp only [bind_assoc, ih, World.later_later, List.flatMap_cons, List.length_append]

end Targets

namespace Path

theorem looks_resolve (world : World) (creating : Bool) (p : Path) :
    Looks (p.resolve world creating) :=
  Looks.ofStore.bind fun _ => (Looks.lift _).bind fun _ => Targets.looks_follow _ _ _ _ _

theorem result_resolve (world : World) (creating : Bool) (p : Path) (w : Workspace) :
    (p.resolve world creating).result w = (do
      let t ← w.store.peek p.base
      (Targets.follow (world.later 1) creating t.slot ⟨[[]], false⟩ p.accessors).result w) := by
  refine (result_bind_of_looks Looks.ofStore (fun _ => ?_) w).trans ?_
  · exact (Looks.lift _).bind fun _ => Targets.looks_follow _ _ _ _ _
  · exact result_bind_of_looks (Looks.lift _) (fun _ => Targets.looks_follow _ _ _ _ _) w

end Path

/-! ### The keys of selected steps -/

/-- The index of a selector that has one. -/
def Selector.index? : Selector → Slot
  | .index slot | .optional slot => slot
  | .all | .range .. | .entryKey | .entryValue => none

namespace Value

private theorem not_mem_positionSteps {key : Value} {start stop : Nat} :
    .mapKey key ∉ positionSteps start stop := by
  intro member
  obtain ⟨i, -, impossible⟩ := List.mem_map.mp member
  cases impossible

private theorem spelled_of_indexSteps {creating isStream : Bool} {parent : Value} {index : Slot}
    {steps : List Step} {key : Value}
    (selected : indexSteps creating parent index = .ok (steps, isStream))
    (member : .mapKey key ∈ steps) : ∃ keyTy valueTy pairs v, parent = .map keyTy valueTy pairs ∧
      index = some v ∧ mapKey keyTy v = .ok key := by
  cases index with
  | none => cases selected
  | some v =>
    cases parent with
    | map keyTy valueTy pairs =>
      obtain ⟨named, spelled, rest⟩ := bind_eq_ok.mp selected
      refine ⟨keyTy, valueTy, pairs, v, rfl, rfl, ?_⟩
      split at rest
      · cases rest
      · cases rest
        cases List.mem_singleton.mp member
        exact spelled
    | list element items | iterator element items =>
      cases v with
      | map =>
        cases selected
        simp at member
      | _ =>
        obtain ⟨i, -, rest⟩ := bind_eq_ok.mp selected
        split at rest
        · cases rest
        · cases rest
          simp at member
    | _ => cases selected

/-- A selected key is one of the map's own, or is what the map makes of the selector's index. -/
theorem spelled_of_selected {creating isStream : Bool} {selector : Selector} {parent : Slot}
    {steps : List Step} {key : Value}
    (selected : selectedSteps creating selector parent = .ok (steps, isStream))
    (member : .mapKey key ∈ steps) : ∃ keyTy valueTy pairs,
      parent = some (.map keyTy valueTy pairs) ∧ ((∃ slot, (key, slot) ∈ pairs) ∨
        ∃ v, selector.index? = some v ∧ mapKey keyTy v = .ok key) := by
  cases parent with
  | none => cases selected
  | some parent =>
    cases selector with
    | all =>
      cases parent with
      | map keyTy valueTy pairs =>
        cases selected
        obtain ⟨⟨own, slot⟩, inside, equal⟩ := List.mem_map.mp member
        cases equal
        exact ⟨keyTy, valueTy, pairs, rfl, .inl ⟨slot, inside⟩⟩
      | list | iterator =>
        cases selected
        exact absurd member not_mem_positionSteps
      | _ => cases selected
    | index slot =>
      obtain ⟨keyTy, valueTy, pairs, v, rfl, given, named⟩ := spelled_of_indexSteps selected member
      exact ⟨keyTy, valueTy, pairs, rfl, .inr ⟨v, given, named⟩⟩
    | optional slot =>
      simp only [selectedSteps] at selected
      split at selected
      · rename_i found
        cases selected
        obtain ⟨keyTy, valueTy, pairs, v, rfl, given, named⟩ := spelled_of_indexSteps found member
        exact ⟨keyTy, valueTy, pairs, rfl, .inr ⟨v, given, named⟩⟩
      · cases selected
        cases member
    | range first last =>
      cases first with
      | none => cases selected
      | some low =>
        cases last with
        | none => cases selected
        | some high =>
          cases parent with
          | list | iterator =>
            obtain ⟨bounds, -, equal⟩ := bind_eq_ok.mp selected
            cases pure_eq_ok.mp equal
            exact absurd member not_mem_positionSteps
          | _ => cases selected
    | entryKey | entryValue =>
      cases parent with
      | entry =>
        cases selected
        simp at member
      | _ => cases selected

end Value

/-! ### The locations -/

/-- The selectors there are. -/
def Selectors.each : Selectors → List Selector
  | .one selector => [selector]
  | .many selectors => selectors

namespace Targets

/-- A location leads one step on from another one, where a slot is, by a step that a selector selects
below that slot. -/
inductive Selected (creating : Bool) (root : Slot) : Location × Selector → Location → Prop where
  | step {front : Location} {parent : Slot} {selector : Selector} {steps : List Step}
    {isStream : Bool} {step : Step} (there : Value.at? front root = .ok parent)
    (selected : Value.selectedSteps creating selector parent = .ok (steps, isStream))
    (member : step ∈ steps) : Selected creating root (front, selector) (front ++ [step])

/-- The locations that follow from one with its selector, if there are any. -/
def next (creating : Bool) (root : Slot) (pair : Location × Selector) : List Location :=
  match found creating root pair.1 pair.2 with
  | .ok (steps, _) => steps.map fun step => pair.1 ++ [step]
  | .error _ => []

theorem locations_of_stepFrom {creating : Bool} {root : Slot} {reached targets : Targets}
    {pairs : List (Location × Selector)} {w : Workspace}
    (run : (stepFrom creating root reached pairs).result w = .ok targets) :
    targets.locations = reached.locations ++ pairs.flatMap (next creating root) := by
  induction pairs generalizing reached with
  | nil =>
    cases run
    exact (List.append_nil _).symm
  | cons pair rest ih =>
    obtain ⟨location, selector⟩ := pair
    rw [result_stepFrom_cons] at run
    rw [List.flatMap_cons, next]
    split at run
    · rename_i steps isStream isFound
      rw [isFound, ih run, ← List.append_assoc]
      rfl
    · rename_i e failed
      rw [failed]
      split at run
      · exact ih run
      · cases run

/-- In a stream no location ends the step: those that fail are passed over. -/
theorem stepFrom_of_stream (creating : Bool) (root : Slot) (locations : List Location)
    (pairs : List (Location × Selector)) (w : Workspace) :
    (stepFrom creating root ⟨locations, true⟩ pairs).result w =
      .ok ⟨locations ++ pairs.flatMap (next creating root), true⟩ := by
  have onward : ∃ further,
      (stepFrom creating root ⟨locations, true⟩ pairs).result w = .ok ⟨further, true⟩ := by
    induction pairs generalizing locations with
    | nil => exact ⟨locations, rfl⟩
    | cons pair rest ih =>
      obtain ⟨location, selector⟩ := pair
      rw [result_stepFrom_cons]
      cases found creating root location selector with
      | ok given => exact ih _
      | error e => exact ih locations
  obtain ⟨further, run⟩ := onward
  have led := locations_of_stepFrom run
  dsimp only at led
  rw [run, led]

theorem selected_of_mem_next {creating : Bool} {root : Slot} {pair : Location × Selector}
    {location : Location} (member : location ∈ next creating root pair) :
    Selected creating root pair location := by
  unfold next at member
  split at member
  · rename_i steps isStream isFound
    obtain ⟨step, inside, rfl⟩ := List.mem_map.mp member
    obtain ⟨parent, there, selected⟩ := bind_eq_ok.mp isFound
    exact .step there selected inside
  · cases member

theorem mem_of_stepFrom {creating : Bool} {root : Slot} {reached targets : Targets}
    {pairs : List (Location × Selector)} {w : Workspace}
    (run : (stepFrom creating root reached pairs).result w = .ok targets) :
    ∀ location ∈ targets.locations, location ∈ reached.locations ∨
      ∃ pair ∈ pairs, Selected creating root pair location := by
  intro location member
  rw [locations_of_stepFrom run] at member
  rcases List.mem_append.mp member with before | new
  · exact .inl before
  · obtain ⟨pair, inside, follows⟩ := List.mem_flatMap.mp new
    exact .inr ⟨pair, inside, selected_of_mem_next follows⟩

theorem Selected.length {creating : Bool} {root : Slot} {pair : Location × Selector}
    {location : Location} (selected : Selected creating root pair location) :
    location.length = pair.1.length + 1 := by
  cases selected with
  | step => exact List.length_append

theorem pairUp_mem {targets : Targets} {selectors : Selectors} {pair : Location × Selector}
    (member : pair ∈ targets.pairUp selectors) :
    pair.1 ∈ targets.locations ∧ pair.2 ∈ selectors.each := by
  cases selectors with
  | one selector =>
    obtain ⟨location, inside, rfl⟩ := List.mem_map.mp member
    exact ⟨inside, List.mem_cons_self⟩
  | many selectors =>
    simp only [pairUp] at member
    split at member
    · exact List.of_mem_zip member
    · obtain ⟨location, inside, spread⟩ := List.mem_flatMap.mp member
      obtain ⟨selector, among, rfl⟩ := List.mem_map.mp spread
      exact ⟨inside, among⟩

theorem mem_of_follow {world : World} {creating : Bool} {root : Slot} {targets reached : Targets}
    {accessors : List Accessor} {w : Workspace} {n : Nat}
    (run : (follow world creating root targets accessors).result w = .ok reached)
    (even : ∀ location ∈ targets.locations, location.length = n) :
    ∀ location ∈ reached.locations, location.length = n + accessors.length ∧
      (accessors ≠ [] → ∃ pair, Selected creating root pair location) := by
  induction accessors generalizing world targets n with
  | nil =>
    cases run
    exact fun location member => ⟨even location member, fun impossible => absurd rfl impossible⟩
  | cons accessor rest ih =>
    rw [result_follow_cons] at run
    obtain ⟨selectors, -, stepped⟩ := bind_eq_ok.mp run
    obtain ⟨middle, step, others⟩ := bind_eq_ok.mp stepped
    have onward : ∀ location ∈ middle.locations, location.length = n + 1 ∧
        ∃ pair, Selected (creating && rest.isEmpty) root pair location := by
      intro location member
      rcases mem_of_stepFrom step location member with impossible | ⟨pair, inside, selected⟩
      · cases impossible
      · have long := selected.length
        rw [even pair.1 (pairUp_mem inside).1] at long
        exact ⟨long, pair, selected⟩
    intro location member
    obtain ⟨long, selected⟩ := ih others (fun location inside => (onward location inside).1)
      location member
    refine ⟨by rw [long, List.length_cons]; omega, fun _ => ?_⟩
    cases rest with
    | nil =>
      cases others
      have last := (onward location member).2
      rwa [List.isEmpty_nil, Bool.and_true] at last
    | cons => exact selected nofun

end Targets

/-- The locations of a path have as many steps as it has accessors, and those of a path with
accessors end in a selected step. -/
theorem Path.mem_of_resolve {world : World} {creating : Bool} {p : Path} {w : Workspace}
    {targets : Targets} {t : TypedValue} (held : w.store.find? p.base = some t)
    (run : (p.resolve world creating).result w = .ok targets) :
    ∀ location ∈ targets.locations, location.length = p.accessors.length ∧
      (p.accessors ≠ [] → ∃ pair, Targets.Selected creating t.slot pair location) := by
  have peeked : w.store.peek p.base = .ok t := by simp only [Store.peek, held]
  rw [result_resolve, peeked] at run
  have start : ∀ location ∈ ([[]] : List Location), location.length = 0 := by simp
  have led := Targets.mem_of_follow run start
  rwa [Nat.zero_add] at led

end Immediate
