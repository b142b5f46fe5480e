import Immediate.Proofs.Keys
import Immediate.Proofs.Settling
/-! Having a type to the letter. Beyond fitting a type, such a value holds nothing where its own child
types are unset, so its types tell all there is to know about its contents. Casts give such values,
whatever the contents of their source were declared to be, and keep the keys of their maps apart
even where those of the source were not. -/
namespace Immediate.Value

/-- A value is of a type's kind and declares the type's child types where these are set. Its contents
have the child types it declares, and where it declares none there is nothing. -/
inductive HasTy : Ty → Value → Prop where
  | scalar {s : Scalar} {v : Value} (kind : v.kind = .scalar s) : HasTy (.scalar s) v
  | list {wanted own : Option Ty} {items : List Slot} (kept : Keeps wanted own)
    (contents : ∀ t ∈ own, ∀ slot ∈ items, ∀ v ∈ slot, HasTy t v)
    (unset : own = none → ∀ slot ∈ items, slot = none) :
    HasTy (.list wanted) (.list own items)
  | iterator {wanted own : Option Ty} {items : List Slot} (kept : Keeps wanted own)
    (contents : ∀ t ∈ own, ∀ slot ∈ items, ∀ v ∈ slot, HasTy t v)
    (unset : own = none → ∀ slot ∈ items, slot = none) :
    HasTy (.iterator wanted) (.iterator own items)
  | map {wantedKey wantedValue ownKey ownValue : Option Ty} {pairs : List (Value × Slot)}
    (keptKey : Keeps wantedKey ownKey) (keptValue : Keeps wantedValue ownValue)
    (keys : ∀ t ∈ ownKey, ∀ pair ∈ pairs, HasTy t pair.1)
    (values : ∀ t ∈ ownValue, ∀ pair ∈ pairs, ∀ v ∈ pair.2, HasTy t v)
    (unsetKey : ownKey = none → pairs = [])
    (unsetValue : ownValue = none → ∀ pair ∈ pairs, pair.2 = none) :
    HasTy (.map wantedKey wantedValue) (.map ownKey ownValue pairs)
  | entry {wantedKey wantedValue ownKey ownValue : Option Ty} {key value : Slot}
    (keptKey : Keeps wantedKey ownKey) (keptValue : Keeps wantedValue ownValue)
    (keyHalf : ∀ t ∈ ownKey, ∀ v ∈ key, HasTy t v)
    (valueHalf : ∀ t ∈ ownValue, ∀ v ∈ value, HasTy t v)
    (unsetKey : ownKey = none → key = none) (unsetValue : ownValue = none → value = none) :
    HasTy (.entry wantedKey wantedValue) (.entry ownKey ownValue key value)

/-- A declared child type is not unset. -/
theorem not_unset {t : Ty} {P : Prop} (unset : some t = none) : P :=
  absurd unset (Option.some_ne_none t)

theorem hasTy_of_settled {t : Ty} {v : Value} (settled : Settled t v) : HasTy t v := by
  induction settled with
  | scalar steady => exact .scalar (kind_of_toScalar steady)
  | list kept contents ih =>
    refine .list kept ?_ not_unset
    rintro t ⟨⟩
    exact ih
  | iterator kept contents ih =>
    refine .iterator kept ?_ not_unset
    rintro t ⟨⟩
    exact ih
  | map keptKey keptValue apart keys values unset keysIH valuesIH =>
    refine .map keptKey keptValue ?_ valuesIH not_unset unset
    rintro t ⟨⟩
    exact keysIH
  | entry keptKey keptValue keyHalf valueHalf unsetKey unsetValue keyIH valueIH =>
    exact .entry keptKey keptValue keyIH valueIH unsetKey unsetValue

/-- What is so of a slot's contents if a child type is declared for them is so anyway, where without
one there is nothing. -/
theorem each_of_declared {motive : Value → Prop} {known : Option Ty} {slot : Slot}
    (declared : ∀ t ∈ known, ∀ v ∈ slot, motive v) (unset : known = none → slot = none) :
    ∀ v ∈ slot, motive v := by
  intro v held
  cases known with
  | none =>
    rw [unset rfl] at held
    cases held
  | some t => exact declared t rfl v held

theorem keyed_of_settled {t : Ty} {v : Value} (settled : Settled t v) : v.Keyed := by
  induction settled with
  | scalar steady => exact keyed_of_scalar (kind_of_toScalar steady)
  | list kept contents ih => exact .list ih
  | iterator kept contents ih => exact .iterator ih
  | map keptKey keptValue apart keys values unset keysIH valuesIH =>
    refine keyed_map_iff.mpr ⟨?_, keysIH, fun pair member => ?_⟩
    · -- Keys that keep their own keys apart are the same in both directions.
      refine apart.imp_of_mem fun {first second} inFirst inSecond held => ?_
      rw [same_comm (keysIH first inFirst) (keysIH second inSecond)]
      exact held
    · exact each_of_declared (fun t known => valuesIH t known pair member)
        fun none => unset none pair member
  | entry keptKey keptValue keyHalf valueHalf unsetKey unsetValue keyIH valueIH =>
    exact keyed_entry_iff.mpr
      ⟨each_of_declared keyIH unsetKey, each_of_declared valueIH unsetValue⟩

/-- A complete type has all its child types, and so has a value that fits it. -/
theorem known_of_complete {wanted own : Option Ty} (complete : Ty.isCompleteSlot wanted = true)
    (kept : Keeps wanted own) :
    ∃ t, wanted = some t ∧ own = some t ∧ t.isComplete = true := by
  cases wanted with
  | none => cases complete
  | some t => exact ⟨t, rfl, kept t rfl, complete⟩

/-- Fitting a complete type is having it to the letter. -/
theorem hasTy_of_fits {t : Ty} {v : Value} (fits : Fits t v) (complete : t.isComplete = true) :
    HasTy t v := by
  induction fits with
  | scalar kind => exact .scalar kind
  | list kept contents ih =>
    obtain ⟨t, rfl, rfl, complete⟩ := known_of_complete complete kept
    refine .list kept ?_ not_unset
    rintro u ⟨⟩ slot member v held
    exact ih t rfl slot member v held complete
  | iterator kept contents ih =>
    obtain ⟨t, rfl, rfl, complete⟩ := known_of_complete complete kept
    refine .iterator kept ?_ not_unset
    rintro u ⟨⟩ slot member v held
    exact ih t rfl slot member v held complete
  | map keptKey keptValue keys values keysIH valuesIH =>
    rw [Ty.isComplete, Bool.and_eq_true] at complete
    obtain ⟨keyTy, rfl, rfl, completeKey⟩ := known_of_complete complete.1 keptKey
    obtain ⟨valueTy, rfl, rfl, completeValue⟩ := known_of_complete complete.2 keptValue
    refine .map keptKey keptValue ?_ ?_ not_unset not_unset
    · rintro u ⟨⟩ pair member
      exact keysIH keyTy rfl pair member completeKey
    · rintro u ⟨⟩ pair member v held
      exact valuesIH valueTy rfl pair member v held completeValue
  | entry keptKey keptValue keyHalf valueHalf keyIH valueIH =>
    rw [Ty.isComplete, Bool.and_eq_true] at complete
    obtain ⟨keyTy, rfl, rfl, completeKey⟩ := known_of_complete complete.1 keptKey
    obtain ⟨valueTy, rfl, rfl, completeValue⟩ := known_of_complete complete.2 keptValue
    refine .entry keptKey keptValue ?_ ?_ not_unset not_unset
    · rintro u ⟨⟩ v held
      exact keyIH keyTy rfl v held completeKey
    · rintro u ⟨⟩ v held
      exact valueIH valueTy rfl v held completeValue

end Immediate.Value
