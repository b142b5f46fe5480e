import Immediate.Proofs.Casting
import Immediate.Proofs.Sameness
import Immediate.TypedValue
/-! Fitting a type. A value that fits is of the type's kind, declares what the type wants declared,
and has contents that fit what it declares itself. Every successful cast gives such a value, and so
does every default. -/
namespace Immediate

namespace Value

/-- A value is of a type's kind, its own child types are the type's where these are set, and its
contents fit its own child types where those are set. -/
inductive Fits : Ty → Value → Prop where
  | scalar {s : Scalar} {v : Value} (kind : v.kind = .scalar s) : Fits (.scalar s) v
  | list {wanted own : Option Ty} {items : List Slot} (kept : Keeps wanted own)
    (contents : ∀ t ∈ own, ∀ slot ∈ items, ∀ v ∈ slot, Fits t v) :
    Fits (.list wanted) (.list own items)
  | iterator {wanted own : Option Ty} {items : List Slot} (kept : Keeps wanted own)
    (contents : ∀ t ∈ own, ∀ slot ∈ items, ∀ v ∈ slot, Fits t v) :
    Fits (.iterator wanted) (.iterator own items)
  | map {wantedKey wantedValue ownKey ownValue : Option Ty} {pairs : List (Value × Slot)}
    (keptKey : Keeps wantedKey ownKey) (keptValue : Keeps wantedValue ownValue)
    (keys : ∀ t ∈ ownKey, ∀ pair ∈ pairs, Fits t pair.1)
    (values : ∀ t ∈ ownValue, ∀ pair ∈ pairs, ∀ v ∈ pair.2, Fits t v) :
    Fits (.map wantedKey wantedValue) (.map ownKey ownValue pairs)
  | entry {wantedKey wantedValue ownKey ownValue : Option Ty} {key value : Slot}
    (keptKey : Keeps wantedKey ownKey) (keptValue : Keeps wantedValue ownValue)
    (keyHalf : ∀ t ∈ ownKey, ∀ v ∈ key, Fits t v)
    (valueHalf : ∀ t ∈ ownValue, ∀ v ∈ value, Fits t v) :
    Fits (.entry wantedKey wantedValue) (.entry ownKey ownValue key value)

/-- What a slot holds, if anything, fits a type, if that is known. -/
def SlotFits (known : Option Ty) (slot : Slot) : Prop := ∀ t ∈ known, ∀ v ∈ slot, Fits t v

/-- The same for the keys and values of a map. -/
structure PairsFit (keyTy valueTy : Option Ty) (pairs : List (Value × Slot)) : Prop where
  keys : ∀ t ∈ keyTy, ∀ pair ∈ pairs, Fits t pair.1
  values : ∀ pair ∈ pairs, SlotFits valueTy pair.2

theorem fits_map_iff {wantedKey wantedValue ownKey ownValue : Option Ty}
    {pairs : List (Value × Slot)} :
    Fits (.map wantedKey wantedValue) (.map ownKey ownValue pairs) ↔
      Keeps wantedKey ownKey ∧ Keeps wantedValue ownValue ∧ PairsFit ownKey ownValue pairs := by
  constructor
  · intro fits
    cases fits with
    | map keptKey keptValue keys values =>
      exact ⟨keptKey, keptValue, keys, fun pair member t known => values t known pair member⟩
  · rintro ⟨keptKey, keptValue, pairsFit⟩
    exact .map keptKey keptValue pairsFit.keys fun t known pair member =>
      pairsFit.values pair member t known

/-- A value that fits a type is of its kind. -/
theorem kind_of_fits {t : Ty} {v : Value} (fits : Fits t v) : v.kind = t.kind := by
  cases fits with
  | scalar kind => exact kind
  | list | iterator | map | entry => rfl

/-! ### Pairs of maps -/

section Pairs
variable {keyTy valueTy : Option Ty} {pairs : List (Value × Slot)} {key : Value} {slot : Slot}

theorem PairsFit.insert (fits : PairsFit keyTy valueTy pairs)
    (spelled : lookup pairs key = none → ∀ t ∈ keyTy, Fits t key) (value : SlotFits valueTy slot) :
    PairsFit keyTy valueTy (insert pairs key slot) := by
  constructor
  · intro t known pair member
    rcases mem_insert member with inside | ⟨-, ⟨other, inside, equal⟩ | ⟨rfl, absent⟩⟩
    · exact fits.keys t known pair inside
    · rw [← equal]
      exact fits.keys t known other inside
    · exact spelled absent t known
  · intro pair member
    rcases mem_insert member with inside | ⟨rfl, -⟩
    · exact fits.values pair inside
    · exact value

theorem PairsFit.erase (fits : PairsFit keyTy valueTy pairs) (key : Value) :
    PairsFit keyTy valueTy (erase pairs key) :=
  have kept := (erase_sublist pairs key).subset
  ⟨fun t known pair member => fits.keys t known pair (kept member),
    fun pair member => fits.values pair (kept member)⟩

theorem PairsFit.lookup (fits : PairsFit keyTy valueTy pairs)
    (found : lookup pairs key = some slot) : SlotFits valueTy slot := by
  obtain ⟨pair, member, -, rfl⟩ := exists_of_lookup found
  exact fits.values pair member

theorem PairsFit.insertAll {more : List (Value × Slot)} (fits : PairsFit keyTy valueTy pairs)
    (moreFit : PairsFit keyTy valueTy more) : PairsFit keyTy valueTy (insertAll pairs more) := by
  induction more generalizing pairs with
  | nil => exact fits
  | cons pair rest ih =>
    have first : PairsFit keyTy valueTy (Value.insert pairs pair.1 pair.2) :=
      fits.insert (fun _ t known => moreFit.keys t known pair List.mem_cons_self)
        (moreFit.values pair List.mem_cons_self)
    have others : PairsFit keyTy valueTy rest :=
      ⟨fun t known other member => moreFit.keys t known other (List.mem_cons_of_mem _ member),
        fun other member => moreFit.values other (List.mem_cons_of_mem _ member)⟩
    exact ih first others

end Pairs

/-! ### Casts and defaults -/

theorem kind_of_toScalar {s : Scalar} {v w : Value} (converted : v.toScalar? s = some w) :
    w.kind = .scalar s := by
  cases s with
  | integer | float | double | string =>
    obtain ⟨x, -, rfl⟩ := Option.map_eq_some_iff.mp converted
    rfl
  | entity =>
    cases v with
    | entity e =>
      cases converted
      rfl
    | string text =>
      obtain ⟨e, -, rfl⟩ := Option.map_eq_some_iff.mp converted
      rfl
    | _ => cases converted
  | position =>
    cases v with
    | position p =>
      cases converted
      rfl
    | _ => cases converted

private theorem slotFits_of_carried {known : Option Ty} {source out : Slot}
    (carried : Carried (fun t _ w => Fits t w) known source out) : SlotFits known out := by
  intro t isKnown w member
  obtain ⟨v, -, -, fits⟩ := carried.each t isKnown w member
  exact fits

private theorem itemsFit_of_carried {known : Ty} {items out : List Slot}
    (carried : ∀ slot ∈ out, ∃ source ∈ items,
      Carried (fun t _ w => Fits t w) (some known) source slot) :
    ∀ t ∈ some known, ∀ slot ∈ out, ∀ v ∈ slot, Fits t v := by
  intro t isKnown slot member
  obtain ⟨source, -, held⟩ := carried slot member
  exact slotFits_of_carried held t isKnown

private theorem fits_alongCasts : AlongCasts fun t _ w => Fits t w where
  scalar converted := .scalar (kind_of_toScalar converted)
  list kept _ _ carried := .list kept (itemsFit_of_carried carried)
  iterator kept _ _ carried := .iterator kept (itemsFit_of_carried carried)
  map keptKey keptValue _ _ _ carried := by
    refine fits_map_iff.mpr ⟨keptKey, keptValue, PairsFit.insertAll ⟨nofun, nofun⟩ ⟨?_, ?_⟩⟩
    · rintro t ⟨⟩ pair member
      obtain ⟨source, -, ⟨-, fits⟩, -⟩ := carried pair member
      exact fits
    · intro pair member
      obtain ⟨source, -, -, held⟩ := carried pair member
      exact slotFits_of_carried held
  entry keptKey keptValue _ _ carriedKey carriedValue :=
    .entry keptKey keptValue (slotFits_of_carried carriedKey) (slotFits_of_carried carriedValue)

/-- What a value was cast to fits the type. -/
theorem fits_of_cast {t : Ty} {v w : Value} (held : cast t v = .ok w) : Fits t w :=
  fits_alongCasts.of_cast held

/-- What a slot was cast to fits the type, if one was given. -/
theorem slotFits_of_castSlot {known : Option Ty} {source out : Slot}
    (held : castSlot known source = .ok out) : SlotFits known out := by
  intro t isKnown w member
  rcases castSlot_eq_ok held with ⟨rfl, -⟩ | ⟨t', rfl, ⟨-, rfl⟩ | ⟨v, w', -, rfl, cast⟩⟩
  · cases isKnown
  · cases member
  · cases isKnown
    cases member
    exact fits_of_cast cast

end Value

/-- What a variable holds at first fits its type. -/
theorem Ty.slotFits_default (t : Ty) : Value.SlotFits (some t) t.default := by
  rintro t' ⟨⟩ v held
  cases t with
  | scalar s =>
    cases s with
    | entity => cases held
    | _ =>
      cases held
      exact .scalar rfl
  | list | iterator =>
    cases held
    first
      | exact .list (fun _ known => known) nofun
      | exact .iterator (fun _ known => known) nofun
  | map =>
    cases held
    exact .map (fun _ known => known) (fun _ known => known) nofun nofun
  | entry => cases held

end Immediate
