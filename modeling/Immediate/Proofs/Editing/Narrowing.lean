import Immediate.Proofs.Editing.Naming
import Immediate.Proofs.Editing.Picking
import Immediate.Proofs.Editing.Reached
import Immediate.Proofs.Failing
/-! The second way along a path, through the value that assignments to the ends of the first way left.
A pattern may select fewer elements there, lists may be longer and keys exist. The second way leads
nowhere the first did not lead, because on the way to a location that was assigned to, a step is
selected only where it was selected before. -/
namespace Immediate

open Edit Outcome Value

namespace Location

theorem length_le_of_covers {location other : Location} (covered : location.covers other = true) :
    location.length ≤ other.length := by
  induction location generalizing other with
  | nil => exact Nat.zero_le _
  | cons step rest ih =>
    cases other with
    | nil => cases covered
    | cons first more =>
      simp only [covers, Bool.and_eq_true] at covered
      exact Nat.succ_le_succ (ih covered.2)

/-- A location that leads through another one and on, and one that leads a step on, are on one way only
if the steps are the same. -/
theorem same_of_covers {before location more : Location} {pick step : Step}
    (long : before.length = location.length) (own : before.Keyed) (pickKeyed : pick.Keyed)
    (others : location.Keyed) (stepKeyed : step.Keyed)
    (comparable : covers (before ++ pick :: more) (location ++ [step]) = true ∨
      covers (location ++ [step]) (before ++ pick :: more) = true) :
    before.same location = true ∧ pick.same step = true := by
  rw [covers_append long, covers_append long.symm] at comparable
  rcases comparable with forth | back
  · simp only [covers, Bool.and_eq_true] at forth
    exact ⟨by simp [same, long, forth.1], forth.2.1⟩
  · simp only [covers, Bool.and_true, Bool.and_eq_true] at back
    have mirrored : before.covers location = true := (covers_comm long own others).trans back.1
    exact ⟨by simp [same, long, mirrored], (Step.same_comm pickKeyed stepKeyed).trans back.2⟩

theorem same_symm {location other : Location} (own : location.Keyed) (others : other.Keyed)
    (held : location.same other = true) : other.same location = true := by
  simp only [same, Bool.and_eq_true, decide_eq_true_eq] at held ⊢
  exact ⟨held.1.symm, (covers_comm held.1.symm others own).trans held.2⟩

/-- Only the last position of a location can be one that another one fills up to. -/
theorem eq_of_pads {before location : Location} {pick step : Step}
    (long : before.length = location.length) (pads : Pads (before ++ [pick]) (location ++ [step])) :
    before.same location = true ∧ ∃ i j, pick = .index j ∧ step = .index i ∧ i < j := by
  induction before generalizing location with
  | nil =>
    cases List.eq_nil_of_length_eq_zero long.symm
    cases pads with
    | here earlier => exact ⟨rfl, _, _, rfl, rfl, earlier⟩
    | deeper same pads => cases pads
  | cons first rest ih =>
    cases location with
    | nil => cases long
    | cons other more =>
      have shorter : rest.length = more.length := Nat.succ.inj long
      have onward := @ih more shorter
      rw [List.cons_append, List.cons_append] at pads
      generalize back : rest ++ [pick] = further at pads onward
      generalize more ++ [step] = beyond at pads onward
      cases pads with
      | here => simp at back
      | deeper alike pads =>
        obtain ⟨fronts, ends⟩ := onward pads
        refine ⟨?_, ends⟩
        simp only [same, Bool.and_eq_true, decide_eq_true_eq] at fronts ⊢
        exact ⟨long, by simp [covers, alike, fronts.2]⟩

end Location

namespace TypedValue

variable {t t' : TypedValue} {location : Location} {new : Slot} {n : Nat}
  {done : List (Location × Slot)}

/-! ### Before and after assignments -/

/-- What reads at a location afterwards read there before, or something was assigned on the way there
or below, or an empty slot fills a gap. -/
theorem Runs.compare (runs : Runs t done t') (proper : Proper n done) (keyed : SlotKeyed t.slot)
    (own : location.Keyed) :
    (∀ slot, at? location t'.slot = .ok slot → at? location t.slot = .ok slot) ∨
      (∃ pair ∈ done, pair.1.covers location = true ∨ location.covers pair.1 = true) ∨
      (∀ old, at? location t.slot ≠ .ok old) ∧ ∃ pair ∈ done, pair.1.Pads location := by
  by_cases met : ∃ pair ∈ done, pair.1.covers location = true ∨ location.covers pair.1 = true
  · exact .inr (.inl met)
  · have beside : ∀ pair ∈ done, pair.1.covers location = false ∧ location.covers pair.1 = false :=
      fun pair member => ⟨eq_false_of_ne_true fun covered => met ⟨pair, member, .inl covered⟩,
        eq_false_of_ne_true fun covered => met ⟨pair, member, .inr covered⟩⟩
    cases before : at? location t.slot with
    | ok old =>
      refine .inl fun slot read => ?_
      rw [← read]
      exact (runs.apart proper keyed own beside before).symm
    | error e =>
      by_cases after : ∃ slot, at? location t'.slot = .ok slot
      · obtain ⟨slot, read⟩ := after
        rcases runs.fresh proper keyed own read with ⟨old, there⟩ | ⟨pair, member, covered⟩ |
          ⟨-, pads⟩
        · cases before.symm.trans there
        · exact absurd ⟨pair, member, .inl covered⟩ met
        · exact .inr (.inr ⟨nofun, pads⟩)
      · exact .inl fun slot read => absurd ⟨slot, read⟩ after

/-- What reads at no depth of the locations read there before. -/
theorem Runs.above (runs : Runs t done t') (proper : Proper n done) (keyed : SlotKeyed t.slot)
    (own : location.Keyed) (short : location.length < n) {slot : Slot}
    (read : at? location t'.slot = .ok slot) :
    ∃ old, at? location t.slot = .ok old ∧ Rebuilt old slot := by
  have there : ∃ old, at? location t.slot = .ok old := by
    rcases runs.fresh proper keyed own read with there | ⟨pair, member, covered⟩ | ⟨-, pair, member, pads⟩
    · exact there
    · have long := Location.length_le_of_covers covered
      rw [proper.long pair member] at long
      omega
    · have long := pads.length_eq
      rw [proper.long pair member] at long
      omega
  obtain ⟨old, there⟩ := there
  obtain ⟨slot', read', alike⟩ := runs.forward proper keyed own (Nat.le_of_lt short) there
  cases read.symm.trans read'
  exact ⟨old, there, rebuilt_of_shell (alike short)⟩

/-! ### One assignment again -/

theorem assignAt_nil (t : TypedValue) (new : Slot) : t.assignAt [] new = do
    let x ← castSlot (some t.ty) new
    return (⟨t.ty, x⟩, !sameSlot x t.slot) := by
  change (do
    let assigned ← (fun x => (⟨t.ty, x⟩ : TypedValue)) <$> castSlot (some t.ty) new
    return (assigned, !sameSlot assigned.slot t.slot)) = _
  cases castSlot (some t.ty) new <;> rfl

/-- An assignment to a child that holds the same already changes nothing. -/
theorem assignAt_of_same {known : Option Ty} {x old : Slot} (below : location ≠ [])
    (declared : t.declaredAt? location = .ok known) (cast : castSlot known new = .ok x)
    (there : at? location t.slot = .ok old) (same : sameSlot old x = true) :
    t.assignAt location new = .ok (t, false) := by
  rcases List.eq_nil_or_concat location with rfl | ⟨front, step, rfl⟩
  · exact absurd rfl below
  · rw [List.concat_eq_append] at declared there ⊢
    rw [declaredAt?_concat] at declared
    obtain ⟨parent, reached, known'⟩ := bind_eq_ok.mp declared
    rw [at?_append, reached, ok_bind] at there
    unfold assignAt
    rw [List.getLast?_concat, List.dropLast_concat]
    dsimp only
    rw [alterAt_eq, reached, ok_bind, assignChild_eq, known', ok_bind, cast, ok_bind, there]
    dsimp only
    rw [if_pos same, pure_bind, pure_bind, putAt_of_at? reached]
    rfl

private theorem Assigned.whole_cast (assigned : Assigned t location new t') (whole : location = []) :
    castSlot (some t.ty) new = .ok t'.slot := by
  cases assigned with
  | whole cast => exact cast
  | kept | put => simp at whole

/-- The variable as a whole holds the last value that was assigned to it, just as it was cast. -/
theorem Runs.whole (runs : Runs t done t') (proper : Proper 0 done)
    (last : Location.lastTo [] done = some new) : castSlot (some t.ty) new = .ok t'.slot := by
  induction runs with
  | nil => cases last
  | @cons t u t' other assigned rest first others ih =>
    obtain ⟨⟨empty, -, -⟩, properRest⟩ := proper.cons
    have whole := List.eq_nil_of_length_eq_zero empty
    cases later : Location.lastTo [] rest with
    | some x =>
      have same : x = new := by simpa [Location.lastTo, later] using last
      rw [same] at later
      rw [← first.ty]
      exact ih properRest later
    | none =>
      have none_left : rest = [] := by
        refine List.eq_nil_iff_forall_not_mem.mpr fun pair member => ?_
        have missed := Location.lastTo_eq_none.mp later pair member
        rw [List.eq_nil_of_length_eq_zero (properRest.long pair member)] at missed
        cases missed
      subst none_left
      cases others
      have same : assigned = new := by
        simp [Location.lastTo, whole, Location.same, Location.covers] at last
        exact last
      rw [← same]
      exact first.whole_cast whole

/-- After assignments of one value, an assignment of it to one of the locations fails or changes
nothing. -/
theorem Runs.settled (runs : Runs t done t') (proper : Proper n done) (keyed : SlotKeyed t.slot)
    (own : location.Keyed) (value : SlotKeyed new) (long : location.length = n)
    (assigned : (∃ result, t'.assignAt location new = .ok result) → location.lastTo done = some new) :
    (∃ e, t'.assignAt location new = .error e) ∨ t'.assignAt location new = .ok (t', false) := by
  cases run : t'.assignAt location new with
  | error e => exact .inl ⟨e, rfl⟩
  | ok result =>
    obtain ⟨known, x, declared, cast⟩ := exists_assignAt_iff.mp ⟨result, run⟩
    have last := assigned ⟨result, run⟩
    obtain ⟨known', x', slot, declared', cast', read, same⟩ :=
      runs.reads_back proper keyed own long last
    cases declared'.symm.trans (runs.declared proper long declared)
    cases cast'.symm.trans cast
    refine .inr (run.symm.trans ?_)
    by_cases whole : location = []
    · subst whole
      subst long
      have held := runs.whole proper last
      cases declared
      rw [runs.ty, held] at cast
      cases cast
      rw [assignAt_nil, runs.ty, held, ok_bind, sameSlot_refl (slotKeyed_of_castSlot value held)]
      rw [← runs.ty]
      rfl
    · exact assignAt_of_same whole declared cast read same

/-- An assignment that could be made at first is among those that were made. -/
theorem mem_succeeded {assigned : List (Location × Slot)} {pair : Location × Slot}
    (proper : Proper n assigned) (keyed : SlotKeyed t.slot) (member : pair ∈ assigned)
    (possible : ∃ result, t.assignAt pair.1 pair.2 = .ok result) : pair ∈ t.succeeded assigned := by
  induction assigned generalizing t with
  | nil => cases member
  | cons first rest ih =>
    obtain ⟨location, new⟩ := first
    obtain ⟨⟨long, own, value⟩, properRest⟩ := proper.cons
    simp only [succeeded]
    cases ran : t.assignAt location new with
    | error e =>
      rcases List.mem_cons.mp member with rfl | later
      · obtain ⟨result, made⟩ := possible
        cases ran.symm.trans made
      · exact ih properRest keyed later possible
    | ok result =>
      obtain ⟨u, changed⟩ := result
      rcases List.mem_cons.mp member with rfl | later
      · exact List.mem_cons_self
      · have assigned := assigned_of_assignAt ran
        refine List.mem_cons_of_mem _ (ih properRest (assigned.keyed keyed own value) later ?_)
        obtain ⟨known, x, declared, cast⟩ := exists_assignAt_iff.mp possible
        have one : Proper n [(location, new)] :=
          ⟨by simpa using long, by simpa using own, by simpa using value⟩
        have runs : Runs t [(location, new)] u := .cons assigned .nil
        exact exists_assignAt_iff.mpr ⟨known, x, runs.stays_declared one keyed
          (properRest.locations pair later) (properRest.long pair later) declared, cast⟩

end TypedValue

namespace Location

theorem lastTo_of_mem {location other : Location} {done : List (Location × Slot)} {new : Slot}
    (each : ∀ pair ∈ done, pair.2 = new) (member : (other, new) ∈ done)
    (same : other.same location = true) : location.lastTo done = some new := by
  cases last : location.lastTo done with
  | none =>
    have missed := lastTo_eq_none.mp last (other, new) member
    rw [same] at missed
    cases missed
  | some x =>
    have among : ∃ pair ∈ done, pair.2 = x := by
      clear each member
      induction done with
      | nil => cases last
      | cons pair rest ih =>
        cases later : location.lastTo rest with
        | some y =>
          rw [lastTo, later] at last
          cases last
          obtain ⟨other, inside, held⟩ := ih later
          exact ⟨other, List.mem_cons_of_mem _ inside, held⟩
        | none =>
          rw [lastTo, later, Option.none_or] at last
          split at last
          · cases last
            exact ⟨pair, List.mem_cons_self, rfl⟩
          · cases last
    obtain ⟨pair, inside, rfl⟩ := among
    rw [each pair inside]

end Location

/-! ### The second way along a path -/

namespace Targets

/-- Locations of a second time that lead nowhere the first ones did not lead, and form a stream just if
those did. -/
structure Narrowed (targets targets' : Targets) : Prop where
  isStream : targets'.isStream = targets.isStream
  among : ∀ location' ∈ targets'.locations, location'.Keyed ∧
    ∃ location ∈ targets.locations, location.same location' = true
  single : targets.isStream = false →
    ∃ location location', targets.locations = [location] ∧ targets'.locations = [location']

/-- Every location leads through one of the targets and on by a step that is selected there. -/
def Through (creating : Bool) (root : Slot) (selector : Selector) (targets : Targets)
    (done : List (Location × Slot)) : Prop :=
  ∀ pair ∈ done, ∃ before ∈ targets.locations, ∃ steps isStream step more,
    found creating root before selector = .ok (steps, isStream) ∧ step ∈ steps ∧
      pair.1 = before ++ step :: more

section Step
variable {t t' : TypedValue} {done : List (Location × Slot)} {n depth : Nat} {creating : Bool}
  {selector : Selector} {targets targets' : Targets} {location location' : Location} {slot' : Slot}
  (runs : t.Runs done t') (proper : TypedValue.Proper n done) (keyed : SlotKeyed t.slot)
  (index : SlotKeyed selector.index?) (other : location'.Keyed) (deep : location'.length < n)
  (there' : at? location' t'.slot = .ok slot')
include runs proper keyed index other deep there'

/-- What a selector selected the first time, it selects in the same way the second time. -/
private theorem selected_again {old : Slot} {steps : List Step} {isStream : Bool}
    (there : at? location' t.slot = .ok old)
    (selected : selectedSteps creating selector old = .ok (steps, isStream)) :
    ∃ steps', selectedSteps creating selector slot' = .ok (steps', isStream) := by
  obtain ⟨old', there₀, rebuilt⟩ := runs.above proper keyed other deep there'
  cases there.symm.trans there₀
  refine exists_picked_of_rebuilt rebuilt selected fun step member child read => ?_
  have leads : Selected creating t.slot (location', selector) (location' ++ [step]) :=
    .step there selected member
  have below : at? (location' ++ [step]) t.slot = .ok child := by
    rw [at?_append, there, ok_bind]
    exact read
  have short : (location' ++ [step]).length ≤ n := by
    rw [List.length_append, List.length_singleton]
    omega
  obtain ⟨child', kept, -⟩ :=
    runs.forward proper keyed (leads.keyed keyed other index) short below
  rw [at?_append, there', ok_bind] at kept
  exact ⟨child', kept⟩

/-- What a selector selects the second time, it selected the first time. -/
private theorem selected_before (keyed' : SlotKeyed t'.slot)
    (through : Through creating t.slot selector targets done)
    (even : ∀ before ∈ targets.locations, before.Keyed ∧ before.length = location'.length)
    (inside : location ∈ targets.locations) (same : location.same location' = true)
    {steps' : List Step} {isStream : Bool} {step' : Step}
    (selected : selectedSteps creating selector slot' = .ok (steps', isStream))
    (member : step' ∈ steps') : ∃ steps pick,
      found creating t.slot location selector = .ok (steps, isStream) ∧ pick ∈ steps ∧
        pick.same step' = true := by
  obtain ⟨old, there, rebuilt⟩ := runs.above proper keyed other deep there'
  have foundAt {before : Location} (listed : before ∈ targets.locations)
      (met : before.same location' = true) :
      found creating t.slot before selector = selectedSteps creating selector old := by
    have mirrored := Location.same_symm (even before listed).1 other met
    rw [found, at?_congr keyed other (even before listed).1 mirrored there, ok_bind]
  have leads : Selected creating t'.slot (location', selector) (location' ++ [step']) :=
    .step there' selected member
  have whole := leads.keyed keyed' other index
  have stepKeyed : step'.Keyed := (Location.keyed_append.mp whole).2 step' List.mem_cons_self
  have readBefore : at? (location' ++ [step']) t.slot = at? [step'] old := by
    rw [at?_append, there, ok_bind]
  have readAfter : at? (location' ++ [step']) t'.slot = at? [step'] slot' := by
    rw [at?_append, there', ok_bind]
  rcases runs.compare proper keyed whole with kept | ⟨pair, written, comparable⟩ |
    ⟨absent, pair, written, pads⟩
  · -- nothing was written on the way to the child, which is as it was
    rw [readBefore, readAfter] at kept
    obtain ⟨steps, pick, picked, listed, held⟩ := picked_of_rebuilt rebuilt (keyed_at? keyed there)
      (keyed_at? keyed' there') stepKeyed selected member kept
    exact ⟨steps, pick, (foundAt inside same).trans picked, listed, held⟩
  · -- what was written led through the child, by a step that was selected
    obtain ⟨before, listed, steps, isStream', step, more, isFound, picked, split⟩ :=
      through pair written
    obtain ⟨beforeKeyed, long⟩ := even before listed
    have pairKeyed := proper.locations pair written
    rw [split] at comparable pairKeyed
    have pickKeyed : step.Keyed := (Location.keyed_append.mp pairKeyed).2 step List.mem_cons_self
    obtain ⟨met, held⟩ :=
      Location.same_of_covers long beforeKeyed pickKeyed other stepKeyed comparable
    rw [foundAt listed met] at isFound
    obtain ⟨again, selected'⟩ :=
      selected_again runs proper keyed index other deep there' there isFound
    cases selected.symm.trans selected'
    exact ⟨steps, step, (foundAt inside same).trans isFound, picked, held⟩
  · -- the child fills up to one past the end, where an earlier position is selected only if it was there
    obtain ⟨before, listed, steps, isStream', step, more, isFound, picked, split⟩ :=
      through pair written
    have long := (even before listed).2
    have empty : more = [] := by
      have even := pads.length_eq
      rw [split] at even
      simp [long] at even
      exact even
    rw [split, empty] at pads
    obtain ⟨met, i, j, rfl, rfl, early⟩ := Location.eq_of_pads long pads
    rw [foundAt listed met] at isFound
    obtain ⟨child, read⟩ := at?_of_picked_before early rebuilt (keyed_at? keyed there) isFound picked
      selected member
    exact absurd (readBefore.trans read) (absent child)

end Step

theorem stepFrom_single_eq_ok {creating : Bool} {root : Slot} {location : Location}
    {selector : Selector} {reached : Targets} {w : Workspace} :
    (stepFrom creating root ⟨[], false⟩ [(location, selector)]).result w = .ok reached ↔
      ∃ steps isStream, found creating root location selector = .ok (steps, isStream) ∧
        reached = ⟨steps.map fun step => location ++ [step], isStream⟩ := by
  rw [result_stepFrom_cons]
  cases found creating root location selector with
  | error e => simp
  | ok given =>
    obtain ⟨steps, isStream⟩ := given
    constructor
    · intro run
      cases run
      exact ⟨steps, isStream, rfl, rfl⟩
    · rintro ⟨_, _, given, rfl⟩
      cases given
      rfl

theorem exists_prefix_of_follow {world : World} {creating : Bool} {root : Slot}
    {targets reached : Targets} {accessors : List Accessor} {w : Workspace}
    (run : (follow world creating root targets accessors).result w = .ok reached) :
    ∀ location ∈ reached.locations, ∃ front ∈ targets.locations, ∃ more, location = front ++ more := by
  induction accessors generalizing world targets with
  | nil =>
    cases run
    exact fun location member => ⟨location, member, [], (List.append_nil _).symm⟩
  | cons a rest ih =>
    rw [result_follow_cons] at run
    obtain ⟨selectors, -, stepped⟩ := bind_eq_ok.mp run
    obtain ⟨middle, step, others⟩ := bind_eq_ok.mp stepped
    intro location member
    obtain ⟨front, inside, more, rfl⟩ := ih others location member
    rcases mem_of_stepFrom step front inside with impossible | ⟨pair, paired, leads⟩
    · cases impossible
    · have among := (pairUp_mem paired).1
      cases leads with
      | @step before _ _ _ _ step => exact ⟨before, among, step :: more, List.append_assoc ..⟩

section Follow
variable {t t' : TypedValue} {done : List (Location × Slot)} {n : Nat} {targets targets' : Targets}
  (runs : t.Runs done t') (proper : TypedValue.Proper n done) (keyed : SlotKeyed t.slot)
  (keyed' : SlotKeyed t'.slot)
include runs proper keyed keyed'

section Step
variable {creating : Bool} {selector : Selector} {depth : Nat} {reached : Targets} {w : Workspace}
  (w' : Workspace) (narrowed : Narrowed targets targets') (index : SlotKeyed selector.index?)
  (even : ∀ before ∈ targets.locations, before.Keyed ∧ before.length = depth) (deep : depth < n)
include narrowed index even deep

/-- Where a step leads the second time, it led the first time. -/
private theorem among_stepFrom {isStream isStream' : Bool} {reached' : Targets}
    (through : Through creating t.slot selector targets done)
    (run : (stepFrom creating t.slot ⟨[], isStream⟩ (targets.pairUp (.one selector))).result w =
      .ok reached)
    (again : (stepFrom creating t'.slot ⟨[], isStream'⟩ (targets'.pairUp (.one selector))).result w' =
      .ok reached') :
    ∀ location' ∈ reached'.locations, location'.Keyed ∧
      ∃ location ∈ reached.locations, location.same location' = true := by
  intro location' member
  rcases mem_of_stepFrom again location' member with impossible | ⟨pair, paired, leads⟩
  · cases impossible
  · obtain ⟨front', inside', rfl⟩ := List.mem_map.mp paired
    obtain ⟨other, front, inside, same⟩ := narrowed.among front' inside'
    have long : front'.length = depth :=
      (Location.length_of_same same).symm.trans (even front inside).2
    refine ⟨leads.keyed keyed' other index, ?_⟩
    cases leads with
    | @step _ slot' _ steps' isStream' step' there' selected listed =>
      obtain ⟨steps, pick, isFound, picked, held⟩ := selected_before runs proper keyed index other
        (by omega) there' keyed' through (fun before listed => by rw [long]; exact even before listed)
        inside same selected listed
      refine ⟨front ++ [pick], ?_, Location.same_concat same held⟩
      rw [locations_of_stepFrom run]
      refine List.mem_append_right _ (List.mem_flatMap.mpr
        ⟨(front, selector), List.mem_map.mpr ⟨front, inside, rfl⟩, ?_⟩)
      rw [next, isFound]
      exact List.mem_map.mpr ⟨pick, picked, rfl⟩

omit keyed' in
/-- A single location that goes on the first time goes on the second time, and stays single if it was. -/
private theorem single_stepFrom (single : targets.isStream = false)
    (run : (stepFrom creating t.slot ⟨[], false⟩ (targets.pairUp (.one selector))).result w =
      .ok reached) :
    ∃ reached', (stepFrom creating t'.slot ⟨[], false⟩ (targets'.pairUp (.one selector))).result w' =
        .ok reached' ∧ reached'.isStream = reached.isStream ∧ (reached.isStream = false →
          ∃ location location', reached.locations = [location] ∧ reached'.locations = [location']) := by
  obtain ⟨location, location', only, only'⟩ := narrowed.single single
  have pairs : targets.pairUp (.one selector) = [(location, selector)] := by rw [pairUp, only]; rfl
  have pairs' : targets'.pairUp (.one selector) = [(location', selector)] := by rw [pairUp, only']; rfl
  have inside : location ∈ targets.locations := by rw [only]; exact List.mem_cons_self
  obtain ⟨other, location₀, inside₀, same⟩ :=
    narrowed.among location' (by rw [only']; exact List.mem_cons_self)
  rw [only] at inside₀
  cases List.mem_singleton.mp inside₀
  rw [pairs] at run
  obtain ⟨steps, isStream, isFound, rfl⟩ := stepFrom_single_eq_ok.mp run
  obtain ⟨old, there, selected⟩ := bind_eq_ok.mp isFound
  have reads := at?_congr keyed (even location inside).1 other same there
  have short : location'.length < n := by
    rw [← Location.length_of_same same, (even location inside).2]
    exact deep
  obtain ⟨slot', there', -⟩ := runs.forward proper keyed other (Nat.le_of_lt short) reads
  obtain ⟨steps', selected'⟩ :=
    selected_again runs proper keyed index other short there' reads selected
  have isFound' : found creating t'.slot location' selector = .ok (steps', isStream) := by
    rw [found, there', ok_bind, selected']
  rw [pairs']
  refine ⟨_, stepFrom_single_eq_ok.mpr ⟨steps', isStream, isFound', rfl⟩, rfl, fun alone => ?_⟩
  dsimp only at alone
  subst alone
  obtain ⟨step, rfl⟩ := List.length_eq_one_iff.mp (length_of_selectedSteps selected)
  obtain ⟨step', rfl⟩ := List.length_eq_one_iff.mp (length_of_selectedSteps selected')
  exact ⟨_, _, rfl, rfl⟩

/-- One written step that has a single selector leads nowhere new. -/
theorem narrowed_stepFrom (through : Through creating t.slot selector targets done)
    (run : (stepFrom creating t.slot ⟨[], targets.isStream || (Selectors.one selector).fans⟩
      (targets.pairUp (.one selector))).result w = .ok reached) :
    ∃ reached', (stepFrom creating t'.slot ⟨[], targets'.isStream || (Selectors.one selector).fans⟩
        (targets'.pairUp (.one selector))).result w' = .ok reached' ∧ Narrowed reached reached' := by
  rw [narrowed.isStream]
  cases fans : targets.isStream || (Selectors.one selector).fans with
  | true =>
    rw [fans] at run
    have again := stepFrom_of_stream creating t'.slot [] (targets'.pairUp (.one selector)) w'
    have among := among_stepFrom runs proper keyed keyed' w' narrowed index even deep through run again
    cases run.symm.trans (stepFrom_of_stream ..)
    exact ⟨_, again, rfl, among, fun impossible => by cases impossible⟩
  | false =>
    rw [fans] at run
    obtain ⟨reached', again, isStream, single⟩ := single_stepFrom runs proper keyed w' narrowed
      index even deep (Bool.or_eq_false_iff.mp fans).1 run
    have among := among_stepFrom runs proper keyed keyed' w' narrowed index even deep through run again
    exact ⟨reached', again, isStream, among, single⟩

end Step

/-- A path all of whose indices evaluate to one value at any moment, and to the same one the second time,
leads nowhere new. -/
theorem narrowed_follow {world world' : World} {accessors : List Accessor} {depth : Nat}
    {reached : Targets} {w w' : Workspace} (narrowed : Narrowed targets targets')
    (evaluates : ∀ a ∈ accessors, ∀ parts selectors,
      (Selectors.ofAccessor (world.later parts) a).result w = .ok selectors →
        ∃ selector, selectors = .one selector ∧ SlotKeyed selector.index? ∧
          (Selectors.ofAccessor (world'.later parts) a).result w' = .ok (.one selector))
    (even : ∀ before ∈ targets.locations, before.Keyed ∧ before.length = depth)
    (total : depth + accessors.length = n) (among : ∀ pair ∈ done, pair.1 ∈ reached.locations)
    (run : (follow world true t.slot targets accessors).result w = .ok reached) :
    ∃ reached', (follow world' true t'.slot targets' accessors).result w' = .ok reached' ∧
      Narrowed reached reached' := by
  induction accessors generalizing world world' targets targets' depth with
  | nil =>
    cases run
    exact ⟨targets', rfl, narrowed⟩
  | cons a rest ih =>
    obtain ⟨first, later⟩ := List.forall_mem_cons.mp evaluates
    have first := first 0
    simp only [World.later_zero] at first
    rw [result_follow_cons] at run
    obtain ⟨selectors, chosen, stepped⟩ := bind_eq_ok.mp run
    obtain ⟨middle, step, others⟩ := bind_eq_ok.mp stepped
    obtain ⟨selector, rfl, index, chosen'⟩ := first selectors chosen
    have onward : ∀ location ∈ middle.locations, ∃ before ∈ targets.locations,
        Selected (true && rest.isEmpty) t.slot (before, selector) location := by
      intro location member
      rcases mem_of_stepFrom step location member with impossible | ⟨pair, paired, leads⟩
      · cases impossible
      · obtain ⟨before, inside, rfl⟩ := List.mem_map.mp paired
        exact ⟨before, inside, leads⟩
    have through : Through (true && rest.isEmpty) t.slot selector targets done := by
      intro pair member
      obtain ⟨front, inside, more, split⟩ := exists_prefix_of_follow others pair.1 (among pair member)
      obtain ⟨before, listed, leads⟩ := onward front inside
      cases leads with
      | @step _ parent _ steps isStream step there selected picked =>
        refine ⟨before, listed, steps, isStream, step, more, ?_, picked, ?_⟩
        · rw [found, there, ok_bind, selected]
        · rw [split, List.append_assoc]
          rfl
    have further : ∀ location ∈ middle.locations, location.Keyed ∧ location.length = depth + 1 := by
      intro location member
      obtain ⟨before, listed, leads⟩ := onward location member
      obtain ⟨own, long⟩ := even before listed
      exact ⟨leads.keyed keyed own index, leads.length.trans (congrArg (· + 1) long)⟩
    rw [List.length_cons] at total
    obtain ⟨middle', step', narrowed'⟩ := narrowed_stepFrom runs proper keyed keyed' w' narrowed
      index even (by omega) through step
    obtain ⟨reached', others', same⟩ :
        ∃ reached', (follow (world'.later a.code.length) true t'.slot middle' rest).result w' =
          .ok reached' ∧ Narrowed reached reached' := by
      refine ih narrowed' (fun b member parts => ?_) further (by omega) others
      rw [World.later_later, World.later_later]
      exact later b member _
    refine ⟨reached', ?_, same⟩
    rw [result_follow_cons, chosen', ok_bind, step', ok_bind]
    exact others'

end Follow

end Targets

end Immediate
