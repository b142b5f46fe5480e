import Immediate.Proofs.Editing.Changing
import Immediate.Proofs.Editing.Locations
import Immediate.Proofs.Typing
/-! Changes keep values fitting. Navigation never looks at the type of the variable, only at the
child types of the containers it passes; what it writes fits the type that is known for the slot, and
so does every container on the way. -/
namespace Immediate

open Outcome

namespace Value

/-- The type known for the slot at a location: the one given for the slot as a whole, and further
down what the parents declare. Below a slot of unknown type nothing is known. -/
def knownAt : Option Ty → Location → Slot → Option Ty
  | known, [], _ => known
  | none, _ :: _, _ => none
  | some _, step :: rest, slot =>
    match childTy? step slot, at? [step] slot with
    | .ok own, .ok child => knownAt own rest child
    | _, _ => none

theorem slotFits_child {t : Ty} {own : Option Ty} {step : Step} {slot child : Slot}
    (fits : SlotFits (some t) slot) (declared : childTy? step slot = .ok own)
    (read : at? [step] slot = .ok child) : SlotFits own child := by
  obtain ⟨v, rfl, held⟩ := at?_step_eq_ok.mp read
  have whole := fits t rfl v rfl
  cases held with
  | listItem found =>
    cases declared
    cases whole with
    | scalar kind => cases kind
    | list kept contents =>
      exact fun t known => contents t known child (List.mem_of_getElem? found)
  | iteratorItem found =>
    cases declared
    cases whole with
    | scalar kind => cases kind
    | iterator kept contents =>
      exact fun t known => contents t known child (List.mem_of_getElem? found)
  | mapValue found =>
    cases declared
    cases whole with
    | scalar kind => cases kind
    | map keptKey keptValue keys values =>
      have pairsFit : PairsFit _ _ _ := ⟨keys, fun pair member t known => values t known pair member⟩
      exact pairsFit.lookup found
  | entryKey =>
    cases declared
    cases whole with
    | scalar kind => cases kind
    | entry keptKey keptValue keyHalf valueHalf => exact keyHalf
  | entryValue =>
    cases declared
    cases whole with
    | scalar kind => cases kind
    | entry keptKey keptValue keyHalf valueHalf => exact valueHalf

/-- A slot below a fitting one fits what is known for it. -/
theorem slotFits_at? {known : Option Ty} {location : Location} {slot child : Slot}
    (fits : SlotFits known slot) (read : at? location slot = .ok child) :
    SlotFits (knownAt known location slot) child := by
  induction location generalizing known slot with
  | nil =>
    cases read
    exact fits
  | cons step rest ih =>
    cases known with
    | none => exact nofun
    | some t =>
      rw [at?_cons] at read
      obtain ⟨middle, first, others⟩ := bind_eq_ok.mp read
      obtain ⟨own, declared⟩ := childTy?_of_at? first
      simp only [knownAt, declared, first]
      exact ih (slotFits_child fits declared first) others

/-! ### Writing one child -/

/-- A key that a step names in a map is of the map's key type. -/
def KeyFits (step : Step) (parent : Slot) : Prop :=
  ∀ key keyTy valueTy pairs, step = .mapKey key → parent = some (.map keyTy valueTy pairs) →
    ∀ t ∈ keyTy, Fits t key

private theorem itemsFit_putItem {own : Option Ty} {items : List Slot} {i : Nat} {new : Slot}
    (contents : ∀ t ∈ own, ∀ slot ∈ items, ∀ v ∈ slot, Fits t v) (fits : SlotFits own new) :
    ∀ t ∈ own, ∀ slot ∈ putItem items i new, ∀ v ∈ slot, Fits t v := by
  intro t known slot member
  rcases mem_putItem member with old | rfl | rfl
  · exact contents t known slot old
  · exact nofun
  · exact fits t known

/-- A container with a child set fits what it fitted, if the child fits and so does its key. -/
theorem slotFits_putChild {known own : Option Ty} {step : Step} {new slot : Slot}
    (fits : SlotFits known slot) (declared : childTy? step slot = .ok own)
    (newFits : SlotFits own new)
    (spelled : (∀ child, at? [step] slot ≠ .ok child) → KeyFits step slot) :
    SlotFits known (putChild step new slot) := by
  intro t isKnown v' member
  cases slot with
  | none => cases member
  | some v =>
    have whole := fits t isKnown v rfl
    cases whole with
    | scalar kind =>
      cases v with
      | list | iterator | map | entry => cases kind
      | _ => cases step <;> cases declared
    | list kept contents =>
      cases step with
      | index i =>
        cases declared
        cases member
        exact .list kept (itemsFit_putItem contents newFits)
      | _ => cases declared
    | iterator kept contents =>
      cases step with
      | index i =>
        cases declared
        cases member
        exact .iterator kept (itemsFit_putItem contents newFits)
      | _ => cases declared
    | @map _ _ keyTy valueTy pairs keptKey keptValue keys values =>
      cases step with
      | mapKey key =>
        cases declared
        cases member
        have before : PairsFit keyTy own pairs :=
          ⟨keys, fun pair member t known => values t known pair member⟩
        refine fits_map_iff.mpr ⟨keptKey, keptValue, before.insert (fun absent => ?_) newFits⟩
        refine spelled (fun child read => ?_) key keyTy own pairs rfl rfl
        obtain ⟨v, equal, held⟩ := at?_step_eq_ok.mp read
        cases equal
        cases held with
        | mapValue found =>
          rw [absent] at found
          cases found
      | _ => cases declared
    | entry keptKey keptValue keyHalf valueHalf =>
      cases step with
      | entryKey =>
        cases declared
        cases member
        exact .entry keptKey keptValue newFits valueHalf
      | entryValue =>
        cases declared
        cases member
        exact .entry keptKey keptValue keyHalf newFits
      | _ => cases declared

/-- A slot fits what it fitted when one below it is replaced by one that fits what is known for
it. -/
theorem slotFits_putAt {known : Option Ty} {location : Location} {slot child child' : Slot}
    (fits : SlotFits known slot) (read : at? location slot = .ok child)
    (newFits : SlotFits (knownAt known location slot) child') :
    SlotFits known (putAt location child' slot) := by
  induction location generalizing known slot with
  | nil => exact newFits
  | cons step rest ih =>
    cases known with
    | none => exact nofun
    | some t =>
      rw [at?_cons] at read
      obtain ⟨middle, first, others⟩ := bind_eq_ok.mp read
      obtain ⟨own, declared⟩ := childTy?_of_at? first
      simp only [knownAt, declared, first] at newFits
      simp only [putAt, first]
      refine slotFits_putChild fits declared
        (ih (slotFits_child fits declared first) others newFits) fun absent => ?_
      exact absurd first (absent middle)

/-! ### Keys of selected steps -/

theorem fits_of_mapKey {keyTy : Option Ty} {index key : Value} (named : mapKey keyTy index = .ok key) :
    ∀ t ∈ keyTy, Fits t key := by
  rintro t ⟨⟩
  exact fits_of_cast named

/-- The key of a selected step is of the map's key type, since it was cast to it or was in the map
already. -/
theorem keyFits_of_selected {creating : Bool} {selector : Selector} {parent : Slot} {t : Ty}
    {steps : List Step} {isStream : Bool} {step : Step} (fits : SlotFits (some t) parent)
    (selected : selectedSteps creating selector parent = .ok (steps, isStream))
    (member : step ∈ steps) : KeyFits step parent := by
  rintro key keyTy valueTy pairs rfl rfl
  obtain ⟨keyTy', valueTy', pairs', same, ⟨slot, inside⟩ | ⟨v, -, named⟩⟩ :=
    spelled_of_selected selected member
  · cases same
    have whole := fits t rfl _ rfl
    cases whole with
    | scalar kind => cases kind
    | map keptKey keptValue keys values => exact fun t known => keys t known (key, slot) inside
  · cases same
    exact fits_of_mapKey named

/-! ### Changes at one location -/

theorem slotFits_assignChild {known : Option Ty} {step : Step} {new parent parent' : Slot}
    {changed : Bool} (fits : SlotFits known parent) (spelled : known ≠ none → KeyFits step parent)
    (run : assignChild step new parent = .ok (parent', changed)) : SlotFits known parent' := by
  intro t isKnown
  have key := spelled (by rw [isKnown]; exact Option.some_ne_none t)
  suffices SlotFits known parent' from this t isKnown
  obtain ⟨own, x, declared, cast, ⟨-, rfl, -⟩ | ⟨-, rfl, -⟩⟩ := assignChild_cases run
  · exact fits
  · exact slotFits_putChild fits declared (slotFits_of_castSlot cast) fun _ => key

private theorem itemsFit_removeItem {own : Option Ty} {items : List Slot} (i : Nat)
    (contents : ∀ t ∈ own, ∀ slot ∈ items, ∀ v ∈ slot, Fits t v) :
    ∀ t ∈ own, ∀ slot ∈ (removeItem items i).1, ∀ v ∈ slot, Fits t v := by
  intro t known slot member
  rcases mem_removeItem member with old | rfl
  · exact contents t known slot old
  · exact nofun

theorem slotFits_removeChild {known : Option Ty} {step : Step} {parent parent' : Slot}
    {changed : Bool} (fits : SlotFits known parent)
    (run : removeChild step parent = .ok (parent', changed)) : SlotFits known parent' := by
  intro t isKnown v' member
  cases parent with
  | none => cases run
  | some v =>
    have whole := fits t isKnown v rfl
    cases whole with
    | scalar kind =>
      cases v with
      | list | iterator | map | entry => cases kind
      | _ => cases step <;> cases run
    | list kept contents =>
      cases step with
      | index i =>
        cases run
        cases member
        exact .list kept (itemsFit_removeItem i contents)
      | _ => cases run
    | iterator kept contents =>
      cases step with
      | index i =>
        cases run
        cases member
        exact .iterator kept (itemsFit_removeItem i contents)
      | _ => cases run
    | map keptKey keptValue keys values =>
      cases step with
      | mapKey key =>
        cases run
        cases member
        have before : PairsFit _ _ _ := ⟨keys, fun pair member t known => values t known pair member⟩
        exact fits_map_iff.mpr ⟨keptKey, keptValue, before.erase key⟩
      | _ => cases run
    | entry => cases run

theorem knownAt_of_alike {depth : Nat} {before after middle' : Slot} (known : Option Ty)
    {front : Location} (alike : Alike depth before after) (short : front.length ≤ depth)
    (read : at? front after = .ok middle') :
    knownAt known front after = knownAt known front before := by
  induction front generalizing depth known before after with
  | nil => cases known <;> rfl
  | cons step rest ih =>
    cases known with
    | none => rfl
    | some t =>
      rw [at?_cons] at read
      obtain ⟨child', reads', below⟩ := bind_eq_ok.mp read
      obtain ⟨depth, rfl⟩ : ∃ n, depth = n + 1 := ⟨depth - 1, by simp at short; omega⟩
      obtain ⟨child, reads, -⟩ := alike [step] (by simp) child' reads'
      obtain ⟨own, declared⟩ := childTy?_of_at? reads
      have declared' := (alike.childTy? step).trans declared
      simp only [knownAt, declared, declared', reads, reads']
      exact ih own (alike.child reads reads') (Nat.le_of_succ_le_succ short) below

theorem keyFits_of_shell {step : Step} {parent parent' : Slot} (fits : KeyFits step parent)
    (same : shell parent' = shell parent) : KeyFits step parent' := by
  rintro key keyTy valueTy pairs rfl rfl
  cases parent with
  | none => cases same
  | some v =>
    cases v with
    | map keyTy' valueTy' pairs' =>
      cases same
      exact fits key keyTy valueTy pairs' rfl rfl
    | _ => cases same

end Value

namespace TypedValue

/-- What a typed value must be for its slot to fit its type. -/
def Fits (t : TypedValue) : Prop := Value.SlotFits (some t.ty) t.slot

/-- How a typed value stands between the assignments to a path: of its type still, fitting it, and
with the declarations that the path was resolved by. -/
structure Standing (t u : TypedValue) (depth : Nat) : Prop where
  ty : u.ty = t.ty
  fits : u.Fits
  alike : Value.Alike depth t.slot u.slot

theorem Standing.assignAt {creating : Bool} {t u u' : TypedValue} {location : Location}
    {pair : Location × Selector} {new : Slot} {changed : Bool} (rooted : t.Fits) (standing : Standing t u (location.length - 1))
    (selected : Targets.Selected creating t.slot pair location)
    (run : u.assignAt location new = .ok (u', changed)) :
    Standing t u' (location.length - 1) := by
  obtain ⟨there, selected, member⟩ := selected
  rename_i front parent₀ selector steps isStream step
  rw [List.length_append, List.length_singleton, Nat.add_sub_cancel] at standing ⊢
  obtain ⟨parent, parent', read, assigned, rfl⟩ := parent_of_assignAt run
  have known := Value.knownAt_of_alike (some t.ty) standing.alike (Nat.le_refl _) read
  have rootedBelow := Value.slotFits_at? rooted there
  obtain ⟨parent₀', there', same⟩ := standing.alike front (Nat.le_refl _) parent read
  cases there.symm.trans there'
  have fits : Value.SlotFits (some t.ty) u.slot := by
    have held := standing.fits
    rwa [Fits, standing.ty] at held
  have below := Value.slotFits_at? fits read
  have parentFits : Value.SlotFits (Value.knownAt (some t.ty) front u.slot) parent' := by
    refine Value.slotFits_assignChild below (fun isKnown => ?_) assigned
    obtain ⟨k, found⟩ := Option.ne_none_iff_exists'.mp isKnown
    rw [known] at found
    rw [found] at rootedBelow
    exact Value.keyFits_of_shell (Value.keyFits_of_selected rootedBelow selected member) same
  refine ⟨standing.ty, ?_, ?_⟩
  · have put := Value.slotFits_putAt fits read parentFits
    rwa [Fits, standing.ty]
  · refine standing.alike.trans fun front' short middle' read' => ?_
    exact Value.shell_at?_putAt read (Value.shell_assignChild assigned) short read'

theorem Fits.assign {t t' : TypedValue} {new : Slot} (assigned : t.assign new = .ok t') :
    t'.ty = t.ty ∧ t'.Fits := by
  obtain ⟨slot, cast, rfl⟩ := map_eq_ok.mp assigned
  exact ⟨rfl, Value.slotFits_of_castSlot cast⟩

theorem Fits.removeAt {t t' : TypedValue} {location : Location} {changed : Bool} (fits : t.Fits)
    (run : t.removeAt location = .ok (t', changed)) : t'.ty = t.ty ∧ t'.Fits := by
  rcases List.eq_nil_or_concat location with rfl | ⟨front, step, rfl⟩
  · cases run
    exact ⟨rfl, fits⟩
  · rw [List.concat_eq_append] at run
    obtain ⟨parent, parent', read, removed, rfl⟩ := parent_of_removeAt run
    have below := Value.slotFits_at? fits read
    exact ⟨rfl, Value.slotFits_putAt fits read (Value.slotFits_removeChild below removed)⟩

end TypedValue
end Immediate
