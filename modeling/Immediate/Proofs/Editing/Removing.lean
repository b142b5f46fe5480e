import Immediate.Proofs.Editing.Sweeping
import Immediate.Proofs.Editing.Telling
import Immediate.Proofs.Failing
/-! What a removal leaves of a variable. All locations of a path have the same number of steps, so a
removal at one of them never takes away a container that another one is in. Every container directly
above them is changed as its own children are removed, one after another. -/
namespace Immediate

open Edit Outcome Value

namespace Value

/-! ### Children of a container -/

/-- The position that a step names. -/
def position? : Step → Option Nat
  | .index i => some i
  | _ => none

/-- Removals of children, one after another, and how many of them changed something. Those that fail
are passed over. -/
def removeChildren : List Step → Slot → Slot × Nat
  | [], slot => (slot, 0)
  | step :: rest, slot =>
    match removeChild step slot with
    | .ok (slot, changed) =>
      let (slot, n) := removeChildren rest slot
      (slot, n + changed.toNat)
    | .error _ => removeChildren rest slot

theorem removeChildren_sequence {make : List Slot → Value} (sequence : Sequence make)
    (steps : List Step) (items : List Slot) :
    removeChildren steps (some (make items)) =
      (some (make (removeItems (steps.filterMap position?) items).1),
        (removeItems (steps.filterMap position?) items).2) := by
  induction steps generalizing items with
  | nil => rfl
  | cons step rest ih =>
    cases step with
    | index i =>
      have removed : removeChild (.index i) (some (make items)) =
          .ok (some (make (removeItem items i).1), (removeItem items i).2) := by
        cases sequence <;> rfl
      simp only [removeChildren, removed, ih]
      rfl
    | _ =>
      cases sequence <;> exact ih items

theorem erase_eq_filter {pairs : List (Value × Slot)} {key : Value} (keyed : PairsKeyed pairs)
    (own : key.Keyed) : erase pairs key = pairs.filter fun pair => !same key pair.1 := by
  induction pairs with
  | nil => rfl
  | cons head rest ih =>
    by_cases here : same key head.1 = true
    · have others : ∀ pair ∈ rest, (!same key pair.1) = true := by
        intro pair member
        have headKeyed := keyed.keys head List.mem_cons_self
        have pairKeyed := keyed.keys pair (List.mem_cons_of_mem _ member)
        have apart := (List.pairwise_cons.mp keyed.apart).1 pair member
        rw [← same_left_congr own headKeyed pairKeyed here, apart]
        rfl
      rw [erase, if_pos here, List.filter_cons, here, List.filter_eq_self.mpr others]
      rfl
    · rw [erase, if_neg here, List.filter_cons, eq_false_of_ne_true here, ih keyed.tail]
      rfl

/-- Of a map those pairs are left whose keys were not named, in their order. -/
theorem removeChildren_map {pairs : List (Value × Slot)} {steps : List Step}
    (keyed : PairsKeyed pairs) (own : ∀ step ∈ steps, step.Keyed) (keyTy valueTy : Option Ty) :
    (removeChildren steps (some (.map keyTy valueTy pairs))).1 = some (.map keyTy valueTy
      (pairs.filter fun pair => !steps.any fun step => step.same (.mapKey pair.1))) := by
  induction steps generalizing pairs with
  | nil => simp [removeChildren]
  | cons step rest ih =>
    obtain ⟨first, others⟩ := List.forall_mem_cons.mp own
    cases step with
    | mapKey key =>
      have removed : removeChild (.mapKey key) (some (.map keyTy valueTy pairs)) =
        .ok (some (.map keyTy valueTy (erase pairs key)), (lookup pairs key).isSome) := rfl
      simp only [removeChildren, removed, ih (keyed.erase key) others]
      rw [erase_eq_filter keyed first, List.filter_filter]
      simp only [List.any_cons, Bool.not_or, Step.same, Bool.and_comm]
    | _ => exact ih keyed others

end Value

/-! ### The steps below a location -/

namespace Location

/-- The step from one location to another, where that is directly below it. -/
def below : Location → Location → Option Step
  | [], [step] => some step
  | step :: rest, other :: more => if step.same other then below rest more else none
  | _, _ => none

variable {front location : Location} {step : Step}

theorem keyed_below (keyed : location.Keyed) (below : front.below location = some step) :
    step.Keyed := by
  induction front generalizing location with
  | nil =>
    match location with
    | [] => cases below
    | [last] =>
      cases below
      exact (keyed_cons.mp keyed).1
    | _ :: _ :: _ => cases below
  | cons first rest ih =>
    cases location with
    | nil => cases below
    | cons other more =>
      simp only [Location.below] at below
      split at below
      · exact ih (keyed_cons.mp keyed).2 below
      · cases below

theorem below_concat (long : front.length = location.length) (step : Step) :
    front.below (location ++ [step]) = if front.same location then some step else none := by
  induction front generalizing location with
  | nil =>
    cases List.eq_nil_of_length_eq_zero long.symm
    rfl
  | cons first rest ih =>
    cases location with
    | nil => cases long
    | cons other more =>
      have shorter : rest.length = more.length := Nat.succ.inj long
      have met := ih shorter
      simp only [Location.same, shorter, decide_true, Bool.true_and] at met
      cases here : first.same other <;> simp [below, Location.same, covers, here, shorter, met]

theorem same_concat_eq_below (long : location.length = front.length + 1) :
    (front ++ [step]).same location = (front.below location).any step.same := by
  rcases List.eq_nil_or_concat location with rfl | ⟨before, last, rfl⟩
  · cases long
  · rw [List.concat_eq_append] at long ⊢
    have even : front.length = before.length := by simpa using long.symm
    rw [below_concat even, Location.same, covers_concat even]
    cases met : front.covers before <;> simp [Location.same, even, met]

theorem covers_eq_below (long : location.length = front.length + 1) :
    front.covers location = (front.below location).isSome := by
  induction front generalizing location with
  | nil =>
    obtain ⟨last, rfl⟩ := List.length_eq_one_iff.mp long
    rfl
  | cons first rest ih =>
    cases location with
    | nil => cases long
    | cons other more =>
      have met := ih (Nat.succ.inj long)
      cases here : first.same other <;> simp [below, covers, here, met]

end Location

/-! ### Removals in a variable -/

namespace TypedValue

variable {t t' : TypedValue} {front location : Location} {parent : Slot} {step : Step} {changed : Bool}

private theorem removeAt_concat (t : TypedValue) (location : Location) (step : Step) :
    t.removeAt (location ++ [step]) = do
      let (slot, changed) ← alterAt (removeChild step) location t.slot
      return (⟨t.ty, slot⟩, changed) := by
  unfold removeAt
  rw [List.getLast?_concat, List.dropLast_concat]

section Below
variable (keyed : SlotKeyed t.slot) (own : front.Keyed) (others : location.Keyed)
  (long : location.length = front.length + 1) (there : at? front t.slot = .ok parent)
include keyed own others long there

/-- A removal directly below a slot is a removal of a child there. -/
theorem removeAt_of_below (below : front.below location = some step) :
    (∃ e e', removeChild step parent = .error e ∧ t.removeAt location = .error e') ∨
      ∃ parent' changed t', removeChild step parent = .ok (parent', changed) ∧
        t.removeAt location = .ok (t', changed) ∧ at? front t'.slot = .ok parent' := by
  rcases List.eq_nil_or_concat location with rfl | ⟨before, last, rfl⟩
  · cases long
  · rw [List.concat_eq_append] at long below others ⊢
    have even : front.length = before.length := by simpa using long.symm
    rw [Location.below_concat even] at below
    split at below
    · rename_i same
      cases below
      have beforeKeyed := (Location.keyed_append.mp others).1
      have reached := at?_congr keyed own beforeKeyed same there
      rw [removeAt_concat, alterAt_eq, reached, ok_bind]
      cases removed : removeChild step parent with
      | error e => exact .inl ⟨e, e, rfl, rfl⟩
      | ok result =>
        obtain ⟨parent', changed⟩ := result
        refine .inr ⟨parent', changed, _, rfl, rfl, ?_⟩
        have covered : Location.covers before front = true := by
          rw [Location.covers_comm even.symm beforeKeyed own]
          simp [Location.same] at same
          exact same.2
        rw [at?_putAt_of_covers (writable_of_at? reached) keyed beforeKeyed own covered, ← even,
          List.drop_length]
        rfl
    · cases below

/-- A removal beside a slot leaves it alone. -/
theorem at?_removeAt_of_beside (beside : front.below location = none)
    (run : t.removeAt location = .ok (t', changed)) : at? front t'.slot = .ok parent := by
  rcases List.eq_nil_or_concat location with rfl | ⟨before, last, rfl⟩
  · cases long
  · rw [List.concat_eq_append] at long beside others run
    have even : front.length = before.length := by simpa using long.symm
    rw [Location.below_concat even] at beside
    split at beside
    · cases beside
    · rename_i apart
      obtain ⟨inner, inner', reached, removed, rfl⟩ := parent_of_removeAt run
      have beforeKeyed := (Location.keyed_append.mp others).1
      have notAbove : front.covers before = false := by simpa [Location.same, even] using apart
      have notBelow : Location.covers before front = false := by
        rw [Location.covers_comm even.symm beforeKeyed own]
        exact notAbove
      exact at?_putAt_of_apart (writable_of_at? reached) keyed beforeKeyed own notBelow notAbove there

end Below

/-- Removals at locations, seen from a slot directly above some of them, are removals of its children;
and as many of them are told. -/
theorem removed_below {locations : List Location} (keyed : SlotKeyed t.slot) (own : front.Keyed)
    (others : ∀ location ∈ locations, location.Keyed ∧ location.length = front.length + 1)
    (there : at? front t.slot = .ok parent) :
    at? front (t.altered ((Path.removing locations).map (·.2))).slot =
        .ok (removeChildren (locations.filterMap front.below) parent).1 ∧
      (t.noted (Path.removing locations)).countP front.covers =
        (removeChildren (locations.filterMap front.below) parent).2 := by
  induction locations generalizing t parent with
  | nil => exact ⟨there, rfl⟩
  | cons location rest ih =>
    obtain ⟨⟨locationKeyed, long⟩, later⟩ := List.forall_mem_cons.mp others
    have covered := Location.covers_eq_below long
    simp only [Path.removing, List.map_cons, altered, noted, List.filterMap_cons]
    cases below : front.below location with
    | none =>
      rw [below] at covered
      cases run : t.removeAt location with
      | error e => exact ih keyed later there
      | ok result =>
        obtain ⟨u, changed⟩ := result
        have kept := at?_removeAt_of_beside keyed own locationKeyed long there below run
        have onward := ih (keyed_removeAt keyed locationKeyed run) later kept
        cases changed with
        | false => exact onward
        | true =>
          refine ⟨onward.1, ?_⟩
          rw [List.countP_cons_of_neg (by simp [covered])]
          exact onward.2
    | some step =>
      rw [below] at covered
      rcases removeAt_of_below keyed own locationKeyed long there below with
        ⟨e, e', failed, run⟩ | ⟨parent', changed, u, removed, run, reached⟩
      · simp only [run, removeChildren, failed]
        exact ih keyed later there
      · have onward := ih (keyed_removeAt keyed locationKeyed run) later reached
        simp only [run, removeChildren, removed]
        cases changed with
        | false => exact onward
        | true =>
          refine ⟨onward.1, ?_⟩
          rw [List.countP_cons_of_pos (by simp [covered])]
          exact congrArg (· + 1) onward.2

end TypedValue

/-! ### The last written step -/

/-- A selector that addresses positions of a sequence from first to last. -/
inductive Selector.Rising : Selector → Prop where
  | all : Rising .all
  | range (first last : Slot) : Rising (.range first last)
  | pattern (keyTy valueTy : Option Ty) (pattern : List (Value × Slot)) :
    Rising (.index (some (.map keyTy valueTy pattern)))
  | lenient (keyTy valueTy : Option Ty) (pattern : List (Value × Slot)) :
    Rising (.optional (some (.map keyTy valueTy pattern)))

namespace Value

private theorem sublist_positionSteps {start stop length : Nat} (within : stop ≤ length) :
    ∃ positions : List Nat, positionSteps start stop = positions.map Step.index ∧
      positions.Sublist (List.range length) :=
  ⟨_, rfl, (List.drop_sublist start _).trans (List.range_sublist.mpr within)⟩

private theorem sublist_selected (items : List Slot) (selects : Slot → Bool) :
    ∃ positions : List Nat, ((items.zipIdx.filter fun (item, _) => selects item).map fun (_, i) => Step.index i) =
      positions.map Step.index ∧ positions.Sublist (List.range items.length) := by
  refine ⟨(items.zipIdx.filter fun (item, _) => selects item).map (·.2), ?_, ?_⟩
  · rw [List.map_map]
    rfl
  · rw [List.range_eq_range', ← List.zipIdx_map_snd 0 items]
    exact List.filter_sublist.map _

private theorem sublist_of_selected {selector : Selector} (rising : selector.Rising)
    {make : List Slot → Value} (sequence : Sequence make) {items : List Slot} {steps : List Step}
    {isStream : Bool}
    (selected : selectedSteps false selector (some (make items)) = .ok (steps, isStream)) :
    ∃ positions : List Nat, steps = positions.map Step.index ∧ positions.Sublist (List.range items.length) := by
  cases rising with
  | all =>
    cases sequence <;> cases selected <;> exact sublist_positionSteps (Nat.le_refl _)
  | range first last =>
    cases first with
    | none => cases selected
    | some low =>
      cases last with
      | none => cases selected
      | some high =>
        cases sequence <;>
        · obtain ⟨⟨start, stop⟩, cut, equal⟩ := bind_eq_ok.mp selected
          cases pure_eq_ok.mp equal
          exact sublist_positionSteps (stop_le_length cut)
  | pattern keyTy valueTy pattern =>
    cases sequence <;> cases selected <;> exact sublist_selected items (isSelectedBy pattern)
  | lenient keyTy valueTy pattern =>
    cases sequence <;> cases selected <;> exact sublist_selected items (isSelectedBy pattern)

private theorem filterMap_position? (positions : List Nat) :
    (positions.map Step.index).filterMap position? = positions := by
  induction positions with
  | nil => rfl
  | cons i rest ih => exact congrArg (i :: ·) ih

/-- The steps that a selector addresses below a slot, if it addresses any. -/
def selectable (selector : Selector) (slot : Slot) : List Step :=
  match selectedSteps false selector slot with
  | .ok (steps, _) => steps
  | .error _ => []

/-- The positions that such a selector addresses rise, and are in the sequence. -/
theorem rising_selectable {selector : Selector} (rising : selector.Rising)
    {make : List Slot → Value} (sequence : Sequence make) (items : List Slot) :
    ((selectable selector (some (make items))).filterMap position?).Pairwise (· < ·) ∧
      ∀ i ∈ (selectable selector (some (make items))).filterMap position?, i < items.length := by
  unfold selectable
  split
  · rename_i steps isStream selected
    obtain ⟨positions, rfl, among⟩ := sublist_of_selected rising sequence selected
    rw [filterMap_position?]
    exact ⟨List.pairwise_lt_range.sublist among,
      fun i member => List.mem_range.mp (among.subset member)⟩
  · exact ⟨.nil, nofun⟩

/-- A selected child can be removed, unless it is half of an entry. -/
theorem removeChild_of_selected {selector : Selector} {parent : Slot} {steps : List Step}
    {isStream : Bool} {step : Step} (keyed : SlotKeyed parent)
    (selected : selectedSteps false selector parent = .ok (steps, isStream)) (member : step ∈ steps)
    (key : selector ≠ .entryKey) (value : selector ≠ .entryValue) :
    ∃ result, removeChild step parent = .ok result := by
  obtain ⟨child, reads⟩ := reads_of_selected keyed selected member
  obtain ⟨v, rfl, suits⟩ := suits_of_at? reads
  have apart {keyTy valueTy : Option Ty} {first second : Slot}
      (entry : v = .entry keyTy valueTy first second) : False := by
    subst entry
    cases selector with
    | entryKey => exact key rfl
    | entryValue => exact value rfl
    | all => cases selected
    | index slot => cases slot <;> cases selected
    | optional slot =>
      cases slot <;>
      · cases selected
        cases member
    | range first last => cases first <;> cases last <;> cases selected
  cases suits with
  | entryKey | entryValue => exact (apart rfl).elim
  | _ => exact ⟨_, rfl⟩

end Value

namespace Targets

/-- What follows below a slot are the steps that are selected there. -/
theorem filterMap_below_next {root parent : Slot} {front location : Location} (keyed : SlotKeyed root)
    (own : front.Keyed) (other : location.Keyed) (long : front.length = location.length)
    (there : at? front root = .ok parent) (selector : Selector) :
    (next false root (location, selector)).filterMap front.below =
      if front.same location then selectable selector parent else [] := by
  have each (steps : List Step) :
      (steps.map fun step => location ++ [step]).filterMap front.below =
        if front.same location then steps else [] := by
    induction steps with
    | nil => simp
    | cons step rest ih =>
      rw [List.map_cons, List.filterMap_cons, Location.below_concat long, ih]
      cases front.same location <;> rfl
  by_cases same : front.same location = true
  · rw [next, found, at?_congr keyed own other same there, ok_bind, selectable, same]
    split
    · rename_i steps isStream chosen
      rw [chosen, each, same]
    · rename_i e failed
      rw [failed]
      rfl
  · rw [next]
    split
    · rw [each]
      simp [same]
    · simp [same]

/-- Following a path ends with its last written step, at the moments behind the others. -/
theorem follow_concat {world : World} {root : Slot} {targets reached : Targets}
    {accessors : List Accessor} {a : Accessor} {w : Workspace}
    (run : (follow world false root targets (accessors ++ [a])).result w = .ok reached) :
    ∃ middle selectors, (follow world false root targets accessors).result w = .ok middle ∧
      (Selectors.ofAccessor (world.later (accessors.flatMap Accessor.code).length) a).result w =
        .ok selectors ∧
      (stepFrom false root ⟨[], middle.isStream || selectors.fans⟩ (middle.pairUp selectors)).result w =
        .ok reached := by
  rw [follow_append, result_bind_of_looks (looks_follow ..) fun _ => looks_follow ..] at run
  obtain ⟨middle, led, ended⟩ := bind_eq_ok.mp run
  rw [result_follow_cons] at ended
  obtain ⟨selectors, chosen, stepped⟩ := bind_eq_ok.mp ended
  obtain ⟨last, step, others⟩ := bind_eq_ok.mp stepped
  cases others
  exact ⟨middle, selectors, led, chosen, step⟩

/-- Whether a slot is among those that a path leads to. -/
def addresses (targets : Targets) (location : Location) : Bool := targets.locations.any location.same

theorem addresses_concat {targets : Targets} {front : Location}
    (long : ∀ location ∈ targets.locations, location.length = front.length + 1) (step : Step) :
    targets.addresses (front ++ [step]) = (targets.locations.filterMap front.below).any step.same := by
  obtain ⟨locations, isStream⟩ := targets
  dsimp only [addresses] at long ⊢
  induction locations with
  | nil => rfl
  | cons location rest ih =>
    obtain ⟨here, others⟩ := List.forall_mem_cons.mp long
    rw [List.any_cons, Location.same_concat_eq_below here, List.filterMap_cons, ih others]
    cases front.below location <;> rfl

end Targets

/-! ### Removing slots -/

namespace Path

variable {world : World} {p : Path} {w : Workspace} {a : Accessor} {targets : Targets} {t : TypedValue}

/-- The locations of a path follow from those of the path without its last written step. -/
theorem last_of_resolve (last : p.accessors.getLast? = some a)
    (held : w.store.find? p.base = some t)
    (resolved : (p.resolve world false).result w = .ok targets) : ∃ middle selectors,
      (Targets.follow (world.later 1) false t.slot ⟨[[]], false⟩ p.accessors.dropLast).result w =
        .ok middle ∧
      (Selectors.ofAccessor (world.behind ⟨p.base, p.accessors.dropLast⟩) a).result w = .ok selectors ∧
      targets.locations = (middle.pairUp selectors).flatMap (Targets.next false t.slot) := by
  rw [result_resolve, Store.peek_eq_ok.mpr held, ok_bind, ← List.dropLast_append_getLast? a last]
    at resolved
  obtain ⟨middle, selectors, led, chosen, ended⟩ := Targets.follow_concat resolved
  rw [World.behind_eq]
  exact ⟨middle, selectors, led, chosen, Targets.locations_of_stepFrom ended⟩

/-- Every slot that a path leads to can be removed, unless it is half of an entry. -/
theorem exists_removeAt_of_resolve (keyed : SlotKeyed t.slot) (last : p.accessors.getLast? = some a)
    (key : a ≠ .entryKey) (value : a ≠ .entryValue) (held : w.store.find? p.base = some t)
    (resolved : (p.resolve world false).result w = .ok targets) :
    ∀ location ∈ targets.locations, ∃ result, t.removeAt location = .ok result := by
  obtain ⟨middle, selectors, -, chosen, same⟩ := last_of_resolve last held resolved
  intro location member
  rw [same] at member
  obtain ⟨⟨front, selector⟩, paired, inside⟩ := List.mem_flatMap.mp member
  have gives := Selectors.gives_of_ofAccessor chosen selector (Targets.pairUp_mem paired).2
  cases Targets.selected_of_mem_next inside with
  | @step _ parent _ steps isStream step there selected listed =>
    have otherKey : selector ≠ .entryKey := by
      rintro rfl
      cases gives
      exact key rfl
    have otherValue : selector ≠ .entryValue := by
      rintro rfl
      cases gives
      exact value rfl
    obtain ⟨result, removed⟩ :=
      removeChild_of_selected (keyed_at? keyed there) selected listed otherKey otherValue
    refine ⟨(⟨t.ty, putAt front result.1 t.slot⟩, result.2), ?_⟩
    rw [TypedValue.removeAt_concat, alterAt_eq, there, ok_bind, removed]
    rfl

/-- A removal of slots other than halves of entries is carried out, wherever the path leads. -/
theorem exists_remove_of_resolve (stored : w.store.Keyed) (last : p.accessors.getLast? = some a)
    (key : a ≠ .entryKey) (value : a ≠ .entryValue)
    (resolved : (p.resolve world false).result w = .ok targets) :
    ∃ n, (p.remove world).result w = .ok n := by
  obtain ⟨t, held⟩ := find?_of_resolve resolved
  have each := exists_removeAt_of_resolve (stored _ t held) last key value held resolved
  have looks := looks_resolve world false p
  have looked : ((p.resolve world false).after w).store.find? p.base = some t := by
    rw [looks.store w]
    exact held
  have marked : ({ (p.resolve world false).after w with
      store := ((p.resolve world false).after w).store.mark p.base } : Workspace).store.find? p.base =
        some t := looked
  rw [remove_eq_removingSlots last key value, (run_removingSlots resolved).1, (run_changing _ _ looked).1]
  obtain ⟨done, -, ended⟩ := left_of_changeEach targets.isStream (removing targets.locations.reverse)
    marked
  generalize (changeEach p.base targets.isStream (removing targets.locations.reverse)).result _ =
    result at ended
  cases ended with
  | well n => exact ⟨n, rfl⟩
  | @failed _ change rest e single split failure =>
    obtain ⟨location, only⟩ := List.length_eq_one_iff.mp (length_of_resolve resolved single)
    obtain ⟨result, ran⟩ := each location (by simp [only])
    rw [only] at split
    have first : done = [] := by
      have long := congrArg List.length split
      simp [removing] at long
      exact List.eq_nil_of_length_eq_zero (by omega)
    subst first
    cases split
    cases ran.symm.trans failure

/-- What the removal of slots leaves of a container directly above some of them. A sequence is thinned,
and if the positions were addressed in order it is swept, by as many removals as an observer was told of
there. A map loses the addressed keys. -/
structure Vacated (targets : Targets) (inOrder : Prop) (told : List Location) (before after : Slot)
    (front : Location) : Prop where
  sequence : ∀ make items, Sequence make → at? front before = .ok (some (make items)) →
    ∃ items', at? front after = .ok (some (make items')) ∧
      Thinned (fun i => targets.addresses (front ++ [.index i])) items items' ∧
      (inOrder → Swept (fun i => targets.addresses (front ++ [.index i])) items items'
        (told.countP front.covers))
  map : ∀ keyTy valueTy pairs, at? front before = .ok (some (.map keyTy valueTy pairs)) →
    at? front after = .ok (some (.map keyTy valueTy
      (pairs.filter fun pair => !targets.addresses (front ++ [.mapKey pair.1]))))

private theorem addresses_index {front : Location}
    (long : ∀ location ∈ targets.locations, location.length = front.length + 1) :
    (fun i => targets.addresses (front ++ [.index i])) =
      ((targets.locations.reverse.filterMap front.below).filterMap position?).contains := by
  funext i
  rw [Targets.addresses_concat long, List.filterMap_reverse, List.filterMap_reverse,
    List.contains_reverse]
  induction targets.locations.filterMap front.below with
  | nil => rfl
  | cons step rest ih => cases step <;> simp [position?, Step.same, ih]

/-- Positions that one selector addresses below every location of a sequence come in equal passes, and
in reverse each of them falls. -/
private theorem swept_of_rising {middle : Targets} {selector : Selector} {front : Location}
    {make : List Slot → Value} {items : List Slot} (keyed : SlotKeyed t.slot) (own : front.Keyed)
    (others : ∀ location ∈ middle.locations, location.Keyed ∧ location.length = front.length)
    (rising : selector.Rising) (sequence : Sequence make)
    (there : at? front t.slot = .ok (some (make items)))
    (same : targets.locations = (middle.pairUp (.one selector)).flatMap (Targets.next false t.slot)) :
    let positions := (targets.locations.reverse.filterMap front.below).filterMap position?
    Swept positions.contains items (removeItems positions items).1 (removeItems positions items).2 := by
  let pass := (selectable selector (some (make items))).filterMap position?
  let passes := middle.locations.map fun location => if front.same location then pass else []
  have gathered : (targets.locations.filterMap front.below).filterMap position? = passes.flatten := by
    rw [same, Targets.pairUp]
    clear same
    dsimp only [passes]
    generalize middle.locations = locations at others
    induction locations with
    | nil => rfl
    | cons location rest ih =>
      obtain ⟨⟨other, long⟩, later⟩ := List.forall_mem_cons.mp others
      rw [List.map_cons, List.flatMap_cons, List.filterMap_append, List.filterMap_append, ih later,
        Targets.filterMap_below_next keyed own other long.symm there, List.map_cons, List.flatten_cons]
      cases front.same location <;> rfl
  obtain ⟨ascending, inside⟩ := rising_selectable rising sequence items
  intro positions
  have backwards : positions = (passes.map List.reverse).reverse.flatten := by
    rw [← List.reverse_flatten, ← gathered, ← List.filterMap_reverse, ← List.filterMap_reverse]
  rw [backwards]
  refine swept_removeItems_flatten (List.pairwise_reverse.mpr ascending)
    (fun i member => inside i (List.mem_reverse.mp member)) ?_
  intro backward member
  obtain ⟨forward, listed, rfl⟩ := List.mem_map.mp (List.mem_reverse.mp member)
  obtain ⟨location, -, rfl⟩ := List.mem_map.mp listed
  cases front.same location
  · exact .inr rfl
  · exact .inl rfl

private theorem proper_of_follow {middle : Targets} {front : Location} (stored : w.store.Keyed)
    (constants : p.Keyed) (keyed : SlotKeyed t.slot) (long : front.length + 1 = p.accessors.length)
    (led : (Targets.follow (world.later 1) false t.slot ⟨[[]], false⟩ p.accessors.dropLast).result w =
      .ok middle) :
    ∀ location ∈ middle.locations, location.Keyed ∧ location.length = front.length := by
  have start : ∀ location ∈ ([[]] : List Location), location.Keyed ∧ location.length = 0 := by
    intro location member
    cases List.mem_singleton.mp member
    exact ⟨nofun, rfl⟩
  have own : ∀ b ∈ p.accessors.dropLast, ∀ code ∈ b.codes, code.Keyed :=
    fun b member => constants b (List.dropLast_subset _ member)
  intro location member
  have even := (Targets.mem_of_follow led (fun location member => (start location member).2) location
    member).1
  rw [List.length_dropLast] at even
  exact ⟨Targets.keyed_of_follow stored keyed own (fun location member => (start location member).1)
    led location member, by omega⟩

private theorem any_same_comm {steps : List Step} {step : Step} (own : ∀ other ∈ steps, other.Keyed)
    (keyed : step.Keyed) : (steps.any fun other => other.same step) = steps.any step.same := by
  induction steps with
  | nil => rfl
  | cons other rest ih =>
    obtain ⟨first, later⟩ := List.forall_mem_cons.mp own
    rw [List.any_cons, List.any_cons, Step.same_comm first keyed, ih later]

/-- What a removal leaves in the variable, and what it counts and tells. -/
private theorem left_of_remove {n : Nat} (below : p.accessors ≠ []) (held : w.store.find? p.base = some t)
    (resolved : (p.resolve world false).result w = .ok targets)
    (run : (p.remove world).result w = .ok n) :
    n = (t.noted (removing targets.locations.reverse)).length ∧
      ((p.remove world).after w).changes = w.changes ++
        (t.noted (removing targets.locations.reverse)).map (fun location => (p.base, location)) ∧
      ((p.remove world).after w).store.find? p.base =
        some (t.altered ((removing targets.locations.reverse).map (·.2))) := by
  have looks := looks_resolve world false p
  obtain ⟨result, after⟩ := run_remove resolved below run
  rw [run] at result
  obtain ⟨counted, told⟩ := noted_of_changing (looks.store w) (looks.changes w) held result.symm
  refine ⟨counted, by rw [after, told], ?_⟩
  rcases remove_cases world p w with ⟨⟨e, failed⟩, -⟩ | ⟨empty, -⟩ |
    ⟨targets', t₀, -, resolved', held', done, left, ended⟩
  · cases failed.symm.trans run
  · exact absurd empty below
  · cases resolved.symm.trans resolved'
    cases held.symm.trans held'
    rw [run] at ended
    cases ended
    exact left.changed

/-- Removing one slot after another, the last first, vacates what is directly above them. -/
private theorem vacated_of_altered {front : Location} {inOrder : Prop} (keyed : SlotKeyed t.slot)
    (own : front.Keyed)
    (proper : ∀ location ∈ targets.locations, location.Keyed ∧ location.length = front.length + 1)
    (ordered : inOrder → ∀ make items, Sequence make → at? front t.slot = .ok (some (make items)) →
      let positions := (targets.locations.reverse.filterMap front.below).filterMap position?
      Swept positions.contains items (removeItems positions items).1 (removeItems positions items).2) :
    Vacated targets inOrder (t.noted (removing targets.locations.reverse)) t.slot
      (t.altered ((removing targets.locations.reverse).map (·.2))).slot front := by
  have even : ∀ location ∈ targets.locations, location.length = front.length + 1 :=
    fun location member => (proper location member).2
  have backwards : ∀ location ∈ targets.locations.reverse,
      location.Keyed ∧ location.length = front.length + 1 :=
    fun location member => proper location (List.mem_reverse.mp member)
  constructor
  · intro make items sequence there
    obtain ⟨reached, contributed⟩ := TypedValue.removed_below keyed own backwards there
    rw [removeChildren_sequence sequence] at reached contributed
    refine ⟨_, reached, ?_, fun order => ?_⟩
    · rw [addresses_index even]
      exact thinned_removeItems _ items
    · rw [addresses_index even, contributed]
      exact ordered order make items sequence there
  · intro keyTy valueTy pairs there
    obtain ⟨reached, -⟩ := TypedValue.removed_below keyed own backwards there
    have steps : ∀ step ∈ targets.locations.reverse.filterMap front.below, step.Keyed := by
      intro step member
      obtain ⟨location, inside, below⟩ := List.mem_filterMap.mp member
      exact Location.keyed_below (backwards location inside).1 below
    have pairsKeyed := keyed_map_iff.mp (keyed_at? keyed there _ rfl)
    rw [removeChildren_map pairsKeyed steps] at reached
    rw [reached]
    refine congrArg (fun left : List (Value × Slot) => Except.ok (some (Value.map keyTy valueTy left))) ?_
    refine List.filter_congr fun pair member => ?_
    have spelled : Step.Keyed (.mapKey pair.1) := pairsKeyed.keys pair member
    rw [any_same_comm steps spelled, Targets.addresses_concat even,
      List.filterMap_reverse, List.any_reverse]

/-- Wherever a path leads, removing its slots is carried out, and every container loses in it just the
slots that were addressed there. -/
theorem vacated_of_remove (stored : w.store.Keyed) (constants : p.Keyed)
    (last : p.accessors.getLast? = some a) (key : a ≠ .entryKey) (value : a ≠ .entryValue)
    (resolved : (p.resolve world false).result w = .ok targets) : ∃ t t' told,
      (p.remove world).result w = .ok told.length ∧
      ((p.remove world).after w).changes = w.changes ++ told.map (fun location => (p.base, location)) ∧
      w.store.find? p.base = some t ∧ ((p.remove world).after w).store.find? p.base = some t' ∧
      ∀ front : Location, front.Keyed → front.length + 1 = p.accessors.length →
        Vacated targets (∃ selector, (Selectors.ofAccessor (world.behind ⟨p.base, p.accessors.dropLast⟩)
          a).result w = .ok (.one selector) ∧ selector.Rising) told t.slot t'.slot front := by
  obtain ⟨n, run⟩ := exists_remove_of_resolve stored last key value resolved
  have below : p.accessors ≠ [] := fun empty => by simp [empty] at last
  obtain ⟨t, held⟩ := find?_of_resolve resolved
  have keyed := stored _ t held
  have locations := keyed_of_resolve stored constants resolved
  obtain ⟨counted, told, left⟩ := left_of_remove below held resolved run
  refine ⟨t, _, _, by rw [run, counted], told, held, left, fun front own long => ?_⟩
  refine vacated_of_altered keyed own (fun location member => ?_) ?_
  · exact ⟨locations location member,
      (mem_of_resolve held resolved location member).1.trans long.symm⟩
  · rintro ⟨selector, single, rising⟩ make items sequence there
    obtain ⟨middle, selectors, led, chosen, same⟩ := last_of_resolve last held resolved
    cases chosen.symm.trans single
    exact swept_of_rising keyed own (proper_of_follow stored constants keyed long led) rising sequence
      there same

/-- A pattern selects the first and the last of three maps. The last is dropped, the first leaves an
empty slot. -/
theorem vacated_of_remove_pattern :
    let id : VariableId := ⟨"a", "b"⟩
    let entry (n : Nat) : Value := .map (some .int) (some .int) [(.integer .int 1, some (.integer .int n))]
    let w : Workspace := .of (Store.empty.put id ⟨.list (some (.map (some .int) (some .int))),
      some (.list (some (.map (some .int) (some .int))) [some (entry 5), some (entry 6), some (entry 5)])⟩)
    let p : Path := ⟨id, [.index [.constant (some (entry 5))]]⟩
    let targets : Targets := ⟨[[.index 0], [.index 2]], true⟩
    (p.resolve .detached false).result w = .ok targets ∧ ∃ t t' told,
      (p.remove .detached).result w = .ok told.length ∧ w.store.find? id = some t ∧
      ((p.remove .detached).after w).store.find? id = some t' ∧
      Vacated targets (∃ selector, (Selectors.ofAccessor (World.detached.behind ⟨id, []⟩)
        (.index [.constant (some (entry 5))])).result w = .ok (.one selector) ∧ selector.Rising)
        told t.slot t'.slot [] := by
  intro id entry w p targets
  have resolved : (p.resolve .detached false).result w = .ok targets := rfl
  have empty : Store.empty.Keyed := nofun
  have stored : w.store.Keyed := empty.put id (by decide)
  have constants : p.Keyed := by
    intro a member code inside slot among
    cases List.mem_singleton.mp member
    cases List.mem_singleton.mp inside
    rcases List.mem_cons.mp among with same | other
    · cases same
      decide
    · simp at other
  obtain ⟨t, t', told, removed, -, held, left, vacated⟩ :=
    vacated_of_remove stored constants rfl nofun nofun resolved
  exact ⟨resolved, t, t', told, removed, held, left, vacated [] nofun rfl⟩

end Path
end Immediate
