import Immediate.Proofs.Rendering.Literals
import Immediate.Proofs.Stable
/-! Conversions there and back. A text is its 16-bit units, a list is what its iterator walks over, and a
map is the entries of its pairs in order. A cast to the other form keeps everything that the first form
holds, so a second cast gives the value back. -/
namespace Immediate

theorem Text.ofUnitsLossy_units (s : String) : ofUnitsLossy (units s) = s := by
  have filled (cs : List Char) : (cs.map some).map (·.getD '\uFFFD') = cs := by
    rw [List.map_map]
    exact List.map_id cs
  rw [ofUnitsLossy, units, spell_flatMap, filled, String.ofList_toList]

namespace Value

open Outcome

/-- A cast of a value to another type is undone by a cast to its own. -/
def Returns (own other : Ty) (v : Value) : Prop :=
  ∃ w, cast other v = .ok w ∧ cast own w = .ok v

/-! ### Texts -/

/-- The shorts of a text count as its units, also those whose sign bit is set. -/
theorem unitText_unitSlots (s : String) : unitText (unitSlots s) = s := by
  have counted (us : List UInt16) :
      ((us.map fun u => some (Value.integer .short u.toBitVec)).filterMap id).filterMap (fun v =>
        v.toInteger?.map fun n => (⟨BitVec.ofInt 16 n⟩ : UInt16)) = us := by
    induction us with
    | nil => rfl
    | cons u rest ih =>
      have own : (⟨BitVec.ofInt 16 u.toBitVec.toInt⟩ : UInt16) = u := by
        rw [BitVec.ofInt_toInt]
      exact congrArg₂ List.cons own ih
  rw [unitText, unitSlots, counted, Text.ofUnitsLossy_units]

theorem stable_unitSlots (s : String) : ∀ slot ∈ unitSlots s, SlotStable .short slot := by
  intro slot member v held
  obtain ⟨u, -, rfl⟩ := List.mem_map.mp member
  cases held
  exact stable_of_scalar rfl nofun

theorem returns_text (s : String) : Returns .string (.list (some .short)) (.string s) := by
  have units : castUnits .short s = .ok (unitSlots s) := by
    rw [castUnits_eq]
    exact castItems_of_each fun slot member v held =>
      (stable_unitSlots s slot member v held).cast_eq rfl
  refine ⟨.list (some .short) (unitSlots s), map_eq_ok.mpr ⟨_, units, rfl⟩, ?_⟩
  have text : toScalar? (.list (some .short) (unitSlots s)) .string = some (.string s) :=
    congrArg (some ∘ Value.string) (unitText_unitSlots s)
  rw [Ty.string, cast_scalar, castScalar, text]

/-! ### Lists -/

theorem castItems_of_stable {t : Ty} {items : List Slot} (complete : t.isComplete = true)
    (stable : ∀ slot ∈ items, SlotStable t slot) : castItems t items = .ok items :=
  castItems_of_each fun slot member v held => (stable slot member v held).cast_eq complete

theorem returns_list {t : Ty} {v : Value} (complete : t.isComplete = true)
    (stable : Stable (.list (some t)) v) : Returns (.list (some t)) (.iterator (some t)) v := by
  have whole : (Ty.list (some t)).isComplete = true := complete
  obtain ⟨_, items, ⟨⟩, rfl⟩ := exists_of_stable_list whole stable
  have steady := castItems_of_stable complete (stable_list_iff.mp stable)
  exact ⟨.iterator (some t) items, map_eq_ok.mpr ⟨items, steady, rfl⟩,
    map_eq_ok.mpr ⟨items, steady, rfl⟩⟩

/-! ### Maps -/

section Maps
variable {key value : Ty} {pairs : List (Value × Slot)}

/-- The entries of pairs make these pairs, in this order. -/
theorem pairsOfEntries?_entries (keyTy valueTy : Option Ty) (pairs : List (Value × Slot)) :
    pairsOfEntries? (entries keyTy valueTy pairs) = some pairs := by
  induction pairs with
  | nil => rfl
  | cons pair rest ih =>
    unfold entries at ih ⊢
    rw [List.map_cons, pairsOfEntries?, ih]
    rfl

theorem stable_entries
    (stable : ∀ pair ∈ pairs, Stable key pair.1 ∧ SlotStable value pair.2) :
    ∀ slot ∈ entries (some key) (some value) pairs,
      SlotStable (.entry (some key) (some value)) slot := by
  intro slot member v held
  obtain ⟨pair, inside, rfl⟩ := List.mem_map.mp member
  cases held
  refine stable_entry ?_ (stable pair inside).2
  rintro v ⟨⟩
  exact (stable pair inside).1

/-- The pairs are inserted one after another as they stood, since their keys are apart already. -/
theorem castPairs_of_stable (completeKey : key.isComplete = true)
    (completeValue : value.isComplete = true)
    (stable : Stable (.map (some key) (some value)) (.map (some key) (some value) pairs)) :
    castPairs key (some value) pairs = .ok pairs ∧ insertAll [] pairs = pairs := by
  obtain ⟨-, each⟩ := stable_map_iff.mp stable
  refine ⟨castPairs_of_each (fun pair member => (each pair member).1.cast_eq completeKey) ?_,
    insertAll_of_apart nofun (keyed_map_iff.mp stable.keyed).apart_comm⟩
  rintro t ⟨⟩ pair member v held
  exact ((each pair member).2 v held).cast_eq completeValue

theorem returns_map {v : Value} (completeKey : key.isComplete = true)
    (completeValue : value.isComplete = true)
    (stable : Stable (.map (some key) (some value)) v) :
    Returns (.map (some key) (some value)) (.list (some (.entry (some key) (some value)))) v ∧
      Returns (.map (some key) (some value)) (.iterator (some (.entry (some key) (some value)))) v := by
  have complete : (Ty.entry (some key) (some value)).isComplete = true :=
    Bool.and_eq_true_iff.mpr ⟨completeKey, completeValue⟩
  obtain ⟨_, _, pairs, ⟨⟩, ⟨⟩, rfl⟩ := exists_of_stable_map complete stable
  obtain ⟨-, each⟩ := stable_map_iff.mp stable
  obtain ⟨steady, inserted⟩ := castPairs_of_stable completeKey completeValue stable
  have there : castPairEntries (.entry (some key) (some value)) (some key) (some value) pairs =
      .ok (entries (some key) (some value) pairs) := by
    rw [castPairEntries_eq]
    exact castItems_of_stable complete (stable_entries each)
  have made := pairsOfEntries?_entries (some key) (some value) pairs
  have back : castEntryPairs key (some value) (entries (some key) (some value) pairs) = .ok pairs :=
    (castEntryPairs_eq made key (some value)).trans steady
  have tys (source target : Ty) :
      mapTys source target (some key, some value) (some key, some value) pairs =
        .ok (key, some value) := rfl
  have merged : (map (some key) (some value) <$> insertAll [] <$> (Except.ok pairs : Except EvalError _)) =
      .ok (.map (some key) (some value) pairs) :=
    congrArg (Except.ok ∘ Value.map (some key) (some value)) inserted
  constructor
  · refine ⟨.list (some (.entry (some key) (some value))) (entries (some key) (some value) pairs),
      map_eq_ok.mpr ⟨_, there, rfl⟩, ?_⟩
    simp only [cast, made, entryTys, tys, ok_bind, back, merged]
  · refine ⟨.iterator (some (.entry (some key) (some value))) (entries (some key) (some value) pairs),
      map_eq_ok.mpr ⟨_, there, rfl⟩, ?_⟩
    simp only [cast, made, entryTys, tys, ok_bind, back, merged]

end Maps

/-- Casts between the forms of a container lose nothing: every text comes back from its 16-bit units,
every list of a complete type from its iterator, and every map of one from the list and from the iterator
of its entries, its keys in order and empty slots under some of them included. -/
theorem returns_of_containers :
    (∀ s : String, Returns .string (.list (some .short)) (.string s)) ∧
      (∀ {t : Ty} {v : Value}, t.isComplete = true → Stable (.list (some t)) v →
        Returns (.list (some t)) (.iterator (some t)) v) ∧
      ∀ {key value : Ty} {v : Value}, key.isComplete = true → value.isComplete = true →
        Stable (.map (some key) (some value)) v →
          Returns (.map (some key) (some value)) (.list (some (.entry (some key) (some value)))) v ∧
            Returns (.map (some key) (some value))
              (.iterator (some (.entry (some key) (some value)))) v :=
  ⟨returns_text, returns_list, returns_map⟩

/-- A text of two surrogates, a list with nothing in its second place, and a map with nothing under its
second key. -/
theorem returns_of_containers_nested :
    let lists : Ty := .list (some .int)
    let one : Value := .list (some .int) [some (int 1), none]
    let m : Value := .map (some .string) (some lists) [(.string "x", some one), (.string "y", none)]
    let entry : Ty := .entry (some .string) (some lists)
    Stable lists one ∧ Stable (.map (some .string) (some lists)) m ∧
      Returns .string (.list (some .short)) (.string (String.singleton (Char.ofNat 0x1F600))) ∧
      Returns lists (.iterator (some .int)) one ∧
      Returns (.map (some .string) (some lists)) (.list (some entry)) m ∧
      Returns (.map (some .string) (some lists)) (.iterator (some entry)) m := by
  intro lists one m entry
  have stableOne : Stable lists one := by
    refine stable_list_iff.mpr fun slot member v held => ?_
    rcases List.mem_pair.mp member with rfl | rfl
    · cases held
      exact stable_of_scalar rfl nofun
    · cases held
  have stableMap : Stable (.map (some .string) (some lists)) m := by
    refine stable_map_iff.mpr ⟨by decide, fun pair member => ?_⟩
    rcases List.mem_pair.mp member with rfl | rfl
    · refine ⟨stable_of_scalar rfl nofun, ?_⟩
      rintro v ⟨⟩
      exact stableOne
    · exact ⟨stable_of_scalar rfl nofun, nofun⟩
  obtain ⟨texts, backFromIterator, backFromEntries⟩ := returns_of_containers
  exact ⟨stableOne, stableMap, texts _, backFromIterator rfl stableOne,
    backFromEntries rfl rfl stableMap⟩

end Value
end Immediate
