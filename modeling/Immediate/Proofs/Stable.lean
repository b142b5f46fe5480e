import Immediate.Proofs.StandingIn
/-! Stable values. A cast of a value to a complete type that it fits takes the value apart and builds it
again: every element, every half of an entry and every pair of a map. Nothing changes on the way but
32-bit floating-point numbers, which are widened and rounded back, and of these only signalling NaNs. -/
namespace Immediate.Value

/-- Every 32-bit floating-point number in a value, at any depth, is what its widening is rounded back
to. -/
inductive Restored : Value → Prop where
  | float {x : Binary32} (back : x.widen.narrow = x) : Restored (.float x)
  | scalar {v : Value} {s : Scalar} (kind : v.kind = .scalar s) (other : s ≠ .float) : Restored v
  | list {own : Option Ty} {items : List Slot}
    (contents : ∀ slot ∈ items, ∀ v ∈ slot, Restored v) : Restored (.list own items)
  | iterator {own : Option Ty} {items : List Slot}
    (contents : ∀ slot ∈ items, ∀ v ∈ slot, Restored v) : Restored (.iterator own items)
  | map {ownKey ownValue : Option Ty} {pairs : List (Value × Slot)}
    (keys : ∀ pair ∈ pairs, Restored pair.1) (values : ∀ pair ∈ pairs, ∀ v ∈ pair.2, Restored v) :
    Restored (.map ownKey ownValue pairs)
  | entry {ownKey ownValue : Option Ty} {key value : Slot} (keyHalf : ∀ v ∈ key, Restored v)
    (valueHalf : ∀ v ∈ value, Restored v) : Restored (.entry ownKey ownValue key value)

/-- A value that fits a type, with maps that keep their keys apart and numbers that casts restore. -/
structure Stable (t : Ty) (v : Value) : Prop where
  fits : Fits t v
  keyed : v.Keyed
  restored : v.Restored

theorem restored_list_iff {own : Option Ty} {items : List Slot} :
    Restored (.list own items) ↔ ∀ slot ∈ items, ∀ v ∈ slot, Restored v := by
  refine ⟨fun restored => ?_, .list⟩
  cases restored with
  | scalar kind => cases kind
  | list contents => exact contents

theorem restored_iterator_iff {own : Option Ty} {items : List Slot} :
    Restored (.iterator own items) ↔ ∀ slot ∈ items, ∀ v ∈ slot, Restored v := by
  refine ⟨fun restored => ?_, .iterator⟩
  cases restored with
  | scalar kind => cases kind
  | iterator contents => exact contents

theorem restored_map_iff {ownKey ownValue : Option Ty} {pairs : List (Value × Slot)} :
    Restored (.map ownKey ownValue pairs) ↔
      (∀ pair ∈ pairs, Restored pair.1) ∧ ∀ pair ∈ pairs, ∀ v ∈ pair.2, Restored v := by
  refine ⟨fun restored => ?_, fun ⟨keys, values⟩ => .map keys values⟩
  cases restored with
  | scalar kind => cases kind
  | map keys values => exact ⟨keys, values⟩

theorem restored_entry_iff {ownKey ownValue : Option Ty} {key value : Slot} :
    Restored (.entry ownKey ownValue key value) ↔
      (∀ v ∈ key, Restored v) ∧ ∀ v ∈ value, Restored v := by
  refine ⟨fun restored => ?_, fun ⟨keyHalf, valueHalf⟩ => .entry keyHalf valueHalf⟩
  cases restored with
  | scalar kind => cases kind
  | entry keyHalf valueHalf => exact ⟨keyHalf, valueHalf⟩

/-! ### Casting stable values -/

theorem toScalar?_of_restored {v : Value} {s : Scalar} (kind : v.kind = .scalar s)
    (restored : v.Restored) : v.toScalar? s = some v := by
  cases v with
  | integer width n =>
    cases kind
    simp only [toScalar?, toInteger?, ofInt, Option.map_some, BitVec.ofInt_toInt]
  | float x =>
    cases kind
    cases restored with
    | float back => simp only [toScalar?, toBinary64?, Option.map_some, back]
    | scalar kind other =>
      cases kind
      exact absurd rfl other
  | double | string | entity | position =>
    cases kind
    rfl
  | list | iterator | map | entry => cases kind

/-- Where a value fits a complete type, a cast to the type finds nothing to settle. -/
theorem settled_of_fits {t : Ty} {v : Value} (fits : Fits t v) (complete : t.isComplete = true)
    (keyed : v.Keyed) (restored : v.Restored) : Settled t v := by
  induction fits with
  | scalar kind => exact .scalar (toScalar?_of_restored kind restored)
  | list kept contents ih =>
    obtain ⟨t, rfl, rfl, complete⟩ := known_of_complete complete kept
    exact .list kept fun slot member v held => ih t rfl slot member v held complete
      (keyed_list_iff.mp keyed slot member v held) (restored_list_iff.mp restored slot member v held)
  | iterator kept contents ih =>
    obtain ⟨t, rfl, rfl, complete⟩ := known_of_complete complete kept
    exact .iterator kept fun slot member v held => ih t rfl slot member v held complete
      (keyed_iterator_iff.mp keyed slot member v held)
      (restored_iterator_iff.mp restored slot member v held)
  | map keptKey keptValue keys values keysIH valuesIH =>
    rw [Ty.isComplete, Bool.and_eq_true] at complete
    obtain ⟨keyTy, rfl, rfl, completeKey⟩ := known_of_complete complete.1 keptKey
    obtain ⟨valueTy, rfl, rfl, completeValue⟩ := known_of_complete complete.2 keptValue
    have pairsKeyed := keyed_map_iff.mp keyed
    obtain ⟨restoredKeys, restoredValues⟩ := restored_map_iff.mp restored
    refine .map keptKey keptValue pairsKeyed.apart_comm (fun pair member => ?_) ?_ not_unset
    · exact keysIH keyTy rfl pair member completeKey (pairsKeyed.keys pair member)
        (restoredKeys pair member)
    · rintro u ⟨⟩ pair member v held
      exact valuesIH valueTy rfl pair member v held completeValue
        (pairsKeyed.values pair member v held) (restoredValues pair member v held)
  | entry keptKey keptValue keyHalf valueHalf keyIH valueIH =>
    rw [Ty.isComplete, Bool.and_eq_true] at complete
    obtain ⟨keyTy, rfl, rfl, completeKey⟩ := known_of_complete complete.1 keptKey
    obtain ⟨valueTy, rfl, rfl, completeValue⟩ := known_of_complete complete.2 keptValue
    obtain ⟨keyedKey, keyedValue⟩ := keyed_entry_iff.mp keyed
    obtain ⟨restoredKey, restoredValue⟩ := restored_entry_iff.mp restored
    refine .entry keptKey keptValue ?_ ?_ not_unset not_unset
    · rintro u ⟨⟩ v held
      exact keyIH keyTy rfl v held completeKey (keyedKey v held) (restoredKey v held)
    · rintro u ⟨⟩ v held
      exact valueIH valueTy rfl v held completeValue (keyedValue v held) (restoredValue v held)

section Stable
variable {t : Ty} {v : Value}

/-- A stable value of a complete type is cast to the type without a change. -/
theorem Stable.cast_eq (stable : Stable t v) (complete : t.isComplete = true) :
    cast t v = .ok v :=
  cast_of_settled (settled_of_fits stable.fits complete stable.keyed stable.restored)

/-- It is declared to be of just this type. -/
theorem Stable.ty_eq (stable : Stable t v) (complete : t.isComplete = true) : v.ty = t :=
  Ty.eq_of_suits complete (suits_of_hasTy (hasTy_of_fits stable.fits complete))

end Stable

/-! ### Contents of stable values -/

/-- What a slot holds, if anything, is stable. -/
def SlotStable (t : Ty) (slot : Slot) : Prop := ∀ v ∈ slot, Stable t v

theorem stable_of_scalar {s : Scalar} {v : Value} (kind : v.kind = .scalar s) (other : s ≠ .float) :
    Stable (.scalar s) v :=
  ⟨.scalar kind, keyed_of_scalar kind, .scalar kind other⟩

section Contents
variable {t key value : Ty} {items : List Slot} {pairs : List (Value × Slot)}

theorem stable_list_iff :
    Stable (.list (some t)) (.list (some t) items) ↔ ∀ slot ∈ items, SlotStable t slot := by
  constructor
  · rintro ⟨fits, keyed, restored⟩ slot member v held
    cases fits with
    | list kept contents =>
      exact ⟨contents t rfl slot member v held, keyed_list_iff.mp keyed slot member v held,
        restored_list_iff.mp restored slot member v held⟩
  · refine fun stable => ⟨.list (fun _ known => known) ?_, .list fun slot member v held =>
      (stable slot member v held).keyed, .list fun slot member v held =>
      (stable slot member v held).restored⟩
    rintro u ⟨⟩ slot member v held
    exact (stable slot member v held).fits

theorem stable_map_iff :
    Stable (.map (some key) (some value)) (.map (some key) (some value) pairs) ↔
      KeysApart pairs ∧ ∀ pair ∈ pairs, Stable key pair.1 ∧ SlotStable value pair.2 := by
  constructor
  · rintro ⟨fits, keyed, restored⟩
    obtain ⟨-, -, pairsFit⟩ := fits_map_iff.mp fits
    have pairsKeyed := keyed_map_iff.mp keyed
    obtain ⟨restoredKeys, restoredValues⟩ := restored_map_iff.mp restored
    refine ⟨pairsKeyed.apart, fun pair member => ⟨⟨pairsFit.keys key rfl pair member,
      pairsKeyed.keys pair member, restoredKeys pair member⟩, fun v held => ?_⟩⟩
    exact ⟨pairsFit.values pair member value rfl v held, pairsKeyed.values pair member v held,
      restoredValues pair member v held⟩
  · rintro ⟨apart, stable⟩
    refine ⟨.map (fun _ known => known) (fun _ known => known) ?_ ?_,
      .map apart (fun pair member => (stable pair member).1.keyed)
        fun pair member v held => ((stable pair member).2 v held).keyed,
      .map (fun pair member => (stable pair member).1.restored)
        fun pair member v held => ((stable pair member).2 v held).restored⟩
    · rintro u ⟨⟩ pair member
      exact (stable pair member).1.fits
    · rintro u ⟨⟩ pair member v held
      exact ((stable pair member).2 v held).fits

theorem stable_entry {first second : Slot} (keyHalf : SlotStable key first)
    (valueHalf : SlotStable value second) :
    Stable (.entry (some key) (some value)) (.entry (some key) (some value) first second) := by
  refine ⟨.entry (fun _ known => known) (fun _ known => known) ?_ ?_,
    .entry (fun v held => (keyHalf v held).keyed) fun v held => (valueHalf v held).keyed,
    .entry (fun v held => (keyHalf v held).restored) fun v held => (valueHalf v held).restored⟩
  · rintro u ⟨⟩ v held
    exact (keyHalf v held).fits
  · rintro u ⟨⟩ v held
    exact (valueHalf v held).fits

end Contents

/-! ### Forms of stable values -/

section Forms
variable {wanted wantedValue : Option Ty} {v : Value}

theorem exists_of_stable_string (stable : Stable .string v) : ∃ s, v = .string s := by
  cases stable.fits with
  | scalar kind =>
    cases v with
    | string s => exact ⟨s, rfl⟩
    | _ => cases kind

theorem exists_of_stable_list (complete : (Ty.list wanted).isComplete = true)
    (stable : Stable (.list wanted) v) : ∃ t items, wanted = some t ∧ v = .list (some t) items := by
  cases stable.fits with
  | list kept contents =>
    obtain ⟨t, rfl, rfl, -⟩ := known_of_complete complete kept
    exact ⟨t, _, rfl, rfl⟩

theorem exists_of_stable_map (complete : (Ty.map wanted wantedValue).isComplete = true)
    (stable : Stable (.map wanted wantedValue) v) :
    ∃ key value pairs, wanted = some key ∧ wantedValue = some value ∧
      v = .map (some key) (some value) pairs := by
  rw [Ty.isComplete, Bool.and_eq_true] at complete
  cases stable.fits with
  | map keptKey keptValue =>
    obtain ⟨key, rfl, rfl, -⟩ := known_of_complete complete.1 keptKey
    obtain ⟨value, rfl, rfl, -⟩ := known_of_complete complete.2 keptValue
    exact ⟨key, value, _, rfl, rfl, rfl⟩

end Forms

end Immediate.Value
