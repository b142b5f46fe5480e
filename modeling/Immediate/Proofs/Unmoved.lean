import Immediate.Proofs.StandingIn
/-! Casts that move nothing. A cast to its own type leaves a value the same, if the declared types of the
value tell all about its contents and no number among these can be rounded. What it changes is at most
what entries declare. -/
namespace Immediate.Value

open Outcome

/-- That there is no floating-point number in a value, and no position. -/
inductive Discrete : Value → Prop where
  | integer (width : Width) (n : BitVec width.bits) : Discrete (.integer width n)
  | string (s : String) : Discrete (.string s)
  | entity (e : EntityId) : Discrete (.entity e)
  | list {element : Option Ty} {items : List Slot}
      (contents : ∀ slot ∈ items, ∀ v ∈ slot, Discrete v) : Discrete (.list element items)
  | iterator {element : Option Ty} {items : List Slot}
      (contents : ∀ slot ∈ items, ∀ v ∈ slot, Discrete v) : Discrete (.iterator element items)
  | map {keyTy valueTy : Option Ty} {pairs : List (Value × Slot)}
      (keys : ∀ pair ∈ pairs, Discrete pair.1)
      (values : ∀ pair ∈ pairs, ∀ v ∈ pair.2, Discrete v) : Discrete (.map keyTy valueTy pairs)
  | entry {keyTy valueTy : Option Ty} {key value : Slot} (keyHalf : ∀ v ∈ key, Discrete v)
      (valueHalf : ∀ v ∈ value, Discrete v) : Discrete (.entry keyTy valueTy key value)

/-- A cast to a type leaves a value the same, unless it is refused. -/
def Unmoved (t : Ty) (v : Value) : Prop := ∀ w, cast t v = .ok w → same v w = true

/-! ### Casts of contents -/

section Contents
variable {t : Ty}

theorem sameSlot_of_castSlot {slot out : Slot} (each : ∀ v ∈ slot, Unmoved t v)
    (held : castSlot (some t) slot = .ok out) : sameSlot slot out = true := by
  rcases castSlot_eq_ok held with ⟨unset, -⟩ | ⟨u, known, ⟨rfl, rfl⟩ | ⟨v, w, rfl, rfl, cast⟩⟩
  · cases unset
  · rfl
  · cases known
    exact each v rfl w cast

theorem sameItems_of_castItems {items out : List Slot}
    (each : ∀ slot ∈ items, ∀ v ∈ slot, Unmoved t v) (held : castItems t items = .ok out) :
    sameItems items out = true := by
  induction items generalizing out with
  | nil =>
    cases held
    rfl
  | cons item rest ih =>
    obtain ⟨first, castItem, held⟩ := bind_eq_ok.mp held
    obtain ⟨more, castRest, equal⟩ := bind_eq_ok.mp held
    cases pure_eq_ok.mp equal
    have head := sameSlot_of_castSlot (each item List.mem_cons_self) castItem
    have tail := ih (fun slot member => each slot (List.mem_cons_of_mem _ member)) castRest
    rw [sameItems, head, tail]
    rfl

/-- Pairs one by one the same, in the same order. -/
def Aligned (pairs out : List (Value × Slot)) : Prop :=
  List.Forall₂ (fun pair other => same pair.1 other.1 = true ∧ sameSlot pair.2 other.2 = true)
    pairs out

theorem aligned_of_castPairs {keyTy valueTy : Ty} {pairs out : List (Value × Slot)}
    (keys : ∀ pair ∈ pairs, Unmoved keyTy pair.1)
    (values : ∀ pair ∈ pairs, ∀ v ∈ pair.2, Unmoved valueTy v)
    (held : castPairs keyTy (some valueTy) pairs = .ok out) : Aligned pairs out := by
  induction pairs generalizing out with
  | nil =>
    cases held
    exact .nil
  | cons pair rest ih =>
    obtain ⟨key, castKey, held⟩ := bind_eq_ok.mp held
    obtain ⟨value, castValue, held⟩ := bind_eq_ok.mp held
    obtain ⟨more, castRest, equal⟩ := bind_eq_ok.mp held
    cases pure_eq_ok.mp equal
    refine .cons ⟨keys pair List.mem_cons_self key castKey, ?_⟩ ?_
    · exact sameSlot_of_castSlot (values pair List.mem_cons_self) castValue
    · exact ih (fun other member => keys other (List.mem_cons_of_mem _ member))
        (fun other member => values other (List.mem_cons_of_mem _ member)) castRest

end Contents

/-! ### Pairs that stay in place -/

section Pairs
variable {pairs out : List (Value × Slot)} (aligned : Aligned pairs out) (keyed : PairsKeyed pairs)
  (keys : ∀ pair ∈ out, pair.1.Keyed)
include aligned keyed keys

/-- Keys that are the same as keys that are apart are apart. -/
theorem Aligned.apart : KeysApart out := by
  have long := aligned.length_eq
  refine List.pairwise_iff_getElem.mpr fun i j insideI insideJ below => ?_
  have earlier := (aligned.get (long ▸ insideI) insideI).1
  have later := (aligned.get (long ▸ insideJ) insideJ).1
  have apart := List.pairwise_iff_getElem.mp keyed.apart i j (long ▸ insideI) (long ▸ insideJ) below
  exact (same_congr (keyed.keys _ (List.getElem_mem _)) (keys _ (List.getElem_mem _))
    (keyed.keys _ (List.getElem_mem _)) (keys _ (List.getElem_mem _)) earlier later).trans apart

/-- A map of such pairs is the same, and inserting them one after another keeps them as they are. -/
theorem Aligned.same_map (values : ∀ pair ∈ out, SlotKeyed pair.2)
    (keyTy valueTy otherKey otherValue : Option Ty) :
    same (.map keyTy valueTy pairs) (.map otherKey otherValue (insertAll [] out)) = true := by
  have outKeyed : PairsKeyed out := ⟨aligned.apart keyed keys, keys, values⟩
  have inserted : insertAll [] out = out := insertAll_of_apart nofun outKeyed.apart_comm
  rw [inserted, same, aligned.length_eq]
  exact Bool.and_eq_true_iff.mpr
    ⟨decide_eq_true rfl, (pairsWithin_iff_mem keyed.keys outKeyed).mpr (exists_beside aligned)⟩

end Pairs

/-! ### Casts to the own type -/

/-- What suits a complete type is cast to it as to its own. -/
theorem unmoved_of_suits {t : Ty} {v : Value} (complete : t.isComplete = true)
    (suits : Ty.Suits t v.ty) (own : v.ty.isComplete = true → Unmoved v.ty v) : Unmoved t v := by
  obtain rfl := Ty.eq_of_suits complete suits
  exact own complete

theorem unmoved_half {own : Option Ty} {half : Slot} {t : Ty}
    (known : own.or (slotTy? half) = some t) (complete : t.isComplete = true)
    (suited : ∀ u ∈ own, ∀ v ∈ half, Ty.Suits u v.ty)
    (each : ∀ v ∈ half, v.ty.isComplete = true → Unmoved v.ty v) : ∀ v ∈ half, Unmoved t v := by
  intro v held
  obtain rfl := ty_of_half known complete suited v held
  exact each v held complete

/-- A value whose types tell all about its contents is not moved by a cast to its own type. -/
theorem unmoved_own {v : Value} (typed : WellTyped v) (complete : v.ty.isComplete = true)
    (keyed : v.Keyed) (discrete : Discrete v) : Unmoved v.ty v := by
  induction typed with
  | scalar kind =>
    intro w held
    cases discrete with
    | integer width n =>
      cases held
      rw [ofInt, BitVec.ofInt_toInt]
      exact same_refl keyed
    | string | entity =>
      cases held
      exact same_refl keyed
    | list | iterator | map | entry => cases kind
  | list suited contents ih =>
    intro w held
    obtain ⟨t, rfl, known⟩ := exists_of_complete complete
    obtain ⟨out, castItems, rfl⟩ := map_eq_ok.mp held
    cases discrete with
    | list discrete =>
      refine sameItems_of_castItems (fun slot member v inside => ?_) castItems
      exact unmoved_of_suits known (suited t rfl slot member v inside) fun complete =>
        ih slot member v inside complete (keyed_list_iff.mp keyed slot member v inside)
          (discrete slot member v inside)
  | iterator suited contents ih =>
    intro w held
    obtain ⟨t, rfl, known⟩ := exists_of_complete complete
    obtain ⟨out, castItems, rfl⟩ := map_eq_ok.mp held
    cases discrete with
    | iterator discrete =>
      refine sameItems_of_castItems (fun slot member v inside => ?_) castItems
      exact unmoved_of_suits known (suited t rfl slot member v inside) fun complete =>
        ih slot member v inside complete (keyed_iterator_iff.mp keyed slot member v inside)
          (discrete slot member v inside)
  | @map ownKey ownValue pairs suitedKeys suitedValues keys values keyIH valueIH =>
    intro w held
    obtain ⟨completeKey, completeValue⟩ := Bool.and_eq_true_iff.mp complete
    obtain ⟨keyTy, rfl, knownKey⟩ := exists_of_complete completeKey
    obtain ⟨valueTy, rfl, knownValue⟩ := exists_of_complete completeValue
    obtain ⟨inserted, made, rfl⟩ := map_eq_ok.mp held
    obtain ⟨out, castPairs, rfl⟩ := map_eq_ok.mp made
    have pairsKeyed := keyed_map_iff.mp keyed
    cases discrete with
    | map discreteKeys discreteValues =>
      have aligned : Aligned pairs out := by
        refine aligned_of_castPairs (fun pair member => ?_) (fun pair member v inside => ?_) castPairs
        · exact unmoved_of_suits knownKey (suitedKeys keyTy rfl pair member) fun complete =>
            keyIH pair member complete (pairsKeyed.keys pair member) (discreteKeys pair member)
        · exact unmoved_of_suits knownValue (suitedValues valueTy rfl pair member v inside)
            fun complete => valueIH pair member v inside complete
              (pairsKeyed.values pair member v inside) (discreteValues pair member v inside)
      refine aligned.same_map pairsKeyed (fun pair member => ?_) (fun pair member => ?_) ..
      · obtain ⟨source, -, castKey, -⟩ := exists_of_castPairs castPairs pair member
        exact keyed_of_settled (settled_of_cast castKey)
      · obtain ⟨source, inside, -, castValue⟩ := exists_of_castPairs castPairs pair member
        exact slotKeyed_of_castSlot (pairsKeyed.values source inside) castValue
  | @entry ownKey ownValue key value suitedKey suitedValue keyHalf valueHalf keyIH valueIH =>
    intro w held
    obtain ⟨completeKey, completeValue⟩ := Bool.and_eq_true_iff.mp complete
    obtain ⟨keyTy, knownKey, completeKey⟩ := exists_of_complete completeKey
    obtain ⟨valueTy, knownValue, completeValue⟩ := exists_of_complete completeValue
    have tys : halfTys (.entry (some keyTy) (some valueTy)) ownKey ownValue key value =
        .ok (some keyTy, some valueTy) := rfl
    rw [ty, knownKey, knownValue, cast, tys, ok_bind] at held
    obtain ⟨newKey, castKey, held⟩ := bind_eq_ok.mp held
    obtain ⟨newValue, castValue, equal⟩ := bind_eq_ok.mp held
    cases pure_eq_ok.mp equal
    obtain ⟨keyedKey, keyedValue⟩ := keyed_entry_iff.mp keyed
    cases discrete with
    | entry discreteKey discreteValue =>
      refine Bool.and_eq_true_iff.mpr ⟨sameSlot_of_castSlot ?_ castKey,
        sameSlot_of_castSlot ?_ castValue⟩
      · exact unmoved_half knownKey completeKey suitedKey fun v inside complete =>
          keyIH v inside complete (keyedKey v inside) (discreteKey v inside)
      · exact unmoved_half knownValue completeValue suitedValue fun v inside complete =>
          valueIH v inside complete (keyedValue v inside) (discreteValue v inside)

end Immediate.Value
