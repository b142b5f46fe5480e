import Immediate.Proofs.Exact
/-! Standing in. A value whose types tell all about its contents can be cast to every type that its own
lowers to. Two casts along a chain are refused by design and left out: no iterator becomes text, and
none that has a null among its elements, or a null for one of their keys, becomes a map. -/
namespace Immediate

namespace Ty

/-- A type is of the kind of another and has its child types where these are set. -/
def Suits : (wanted own : Ty) → Prop
  | .scalar s, .scalar t => s = t
  | .list wanted, .list own | .iterator wanted, .iterator own => Value.Keeps wanted own
  | .map wantedKey wantedValue, .map ownKey ownValue
  | .entry wantedKey wantedValue, .entry ownKey ownValue =>
    Value.Keeps wantedKey ownKey ∧ Value.Keeps wantedValue ownValue
  | _, _ => False

theorem suits_refl (t : Ty) : Suits t t := by
  cases t with
  | scalar => rfl
  | list | iterator => exact fun _ known => known
  | map | entry => exact ⟨fun _ known => known, fun _ known => known⟩

/-- Nothing but its own type suits a value without contents. -/
theorem eq_of_suits_scalar {t : Ty} {v : Value} {s : Scalar} (kind : v.kind = .scalar s)
    (suits : Suits t v.ty) : t = .scalar s := by
  cases v with
  | integer | float | double | string | entity | position =>
    cases t with
    | scalar => exact congrArg Ty.scalar (suits.trans (Kind.scalar.inj kind))
    | _ => cases suits
  | list | iterator | map | entry => cases kind

theorem eq_of_keeps {wanted own : Option Ty} (complete : isCompleteSlot wanted = true)
    (kept : Value.Keeps wanted own) : own = wanted := by
  obtain ⟨t, rfl, rfl, -⟩ := Value.known_of_complete complete kept
  rfl

/-- Nothing but a complete type itself suits it. -/
theorem eq_of_suits {wanted own : Ty} (complete : wanted.isComplete = true)
    (suits : Suits wanted own) : own = wanted := by
  cases wanted with
  | scalar s =>
    cases own with
    | scalar t => exact congrArg Ty.scalar suits.symm
    | _ => cases suits
  | list element =>
    cases own with
    | list own => exact congrArg Ty.list (eq_of_keeps complete suits)
    | _ => cases suits
  | iterator element =>
    cases own with
    | iterator own => exact congrArg Ty.iterator (eq_of_keeps complete suits)
    | _ => cases suits
  | map key value =>
    rw [isComplete, Bool.and_eq_true] at complete
    cases own with
    | map ownKey ownValue =>
      rw [eq_of_keeps complete.1 suits.1, eq_of_keeps complete.2 suits.2]
    | _ => cases suits
  | entry key value =>
    rw [isComplete, Bool.and_eq_true] at complete
    cases own with
    | entry ownKey ownValue =>
      rw [eq_of_keeps complete.1 suits.1, eq_of_keeps complete.2 suits.2]
    | _ => cases suits

end Ty

namespace Value

open Outcome

/-- At every depth, what a container holds suits the child type that the container declares. -/
inductive WellTyped : Value → Prop where
  | scalar {s : Scalar} {v : Value} (kind : v.kind = .scalar s) : WellTyped v
  | list {own : Option Ty} {items : List Slot}
    (suited : ∀ t ∈ own, ∀ slot ∈ items, ∀ v ∈ slot, Ty.Suits t v.ty)
    (contents : ∀ slot ∈ items, ∀ v ∈ slot, WellTyped v) : WellTyped (.list own items)
  | iterator {own : Option Ty} {items : List Slot}
    (suited : ∀ t ∈ own, ∀ slot ∈ items, ∀ v ∈ slot, Ty.Suits t v.ty)
    (contents : ∀ slot ∈ items, ∀ v ∈ slot, WellTyped v) : WellTyped (.iterator own items)
  | map {ownKey ownValue : Option Ty} {pairs : List (Value × Slot)}
    (suitedKeys : ∀ t ∈ ownKey, ∀ pair ∈ pairs, Ty.Suits t pair.1.ty)
    (suitedValues : ∀ t ∈ ownValue, ∀ pair ∈ pairs, ∀ v ∈ pair.2, Ty.Suits t v.ty)
    (keys : ∀ pair ∈ pairs, WellTyped pair.1)
    (values : ∀ pair ∈ pairs, ∀ v ∈ pair.2, WellTyped v) : WellTyped (.map ownKey ownValue pairs)
  | entry {ownKey ownValue : Option Ty} {key value : Slot}
    (suitedKey : ∀ t ∈ ownKey, ∀ v ∈ key, Ty.Suits t v.ty)
    (suitedValue : ∀ t ∈ ownValue, ∀ v ∈ value, Ty.Suits t v.ty)
    (keyHalf : ∀ v ∈ key, WellTyped v) (valueHalf : ∀ v ∈ value, WellTyped v) :
    WellTyped (.entry ownKey ownValue key value)

/-- An iterator is not lent as text, and as a map only if every element has a key. Any other value is
lent as all that its type lowers to. -/
def Lends (t : Ty) : Value → Prop
  | .iterator _ items => t ≠ .string ∧ (t.kind = .map → ∀ slot ∈ items,
      ∃ keyTy valueTy key value, slot = some (.entry keyTy valueTy (some key) value))
  | _ => True

/-- The types of a value tell all about its contents. -/
structure Told (v : Value) : Prop where
  complete : v.ty.isComplete = true
  typed : v.WellTyped

/-- A value can stand in for those of a type on its chain. -/
structure StandsIn (t : Ty) (v : Value) : Prop extends Told v where
  lends : v.Lends t

/-! ### Cast values -/

theorem suits_of_hasTy {t : Ty} {v : Value} (has : HasTy t v) : Ty.Suits t v.ty := by
  cases has with
  | scalar kind =>
    cases v with
    | integer | float | double | string | entity | position => exact (Kind.scalar.inj kind).symm
    | list | iterator | map | entry => cases kind
  | list kept | iterator kept => exact kept
  | map keptKey keptValue => exact ⟨keptKey, keptValue⟩
  | entry keptKey keptValue =>
    refine ⟨fun u known => ?_, fun u known => ?_⟩
    · rw [keptKey u known]
      rfl
    · rw [keptValue u known]
      rfl

theorem wellTyped_of_hasTy {t : Ty} {v : Value} (has : HasTy t v) : WellTyped v := by
  induction has with
  | scalar kind => exact .scalar kind
  | list kept contents unset ih =>
    exact .list (fun t known slot member v held => suits_of_hasTy (contents t known slot member v held))
      fun slot member => each_of_declared (fun t known => ih t known slot member)
        fun none => unset none slot member
  | iterator kept contents unset ih =>
    exact .iterator
      (fun t known slot member v held => suits_of_hasTy (contents t known slot member v held))
      fun slot member => each_of_declared (fun t known => ih t known slot member)
        fun none => unset none slot member
  | @map wantedKey wantedValue ownKey ownValue pairs keptKey keptValue keys values unsetKey unsetValue
      keysIH valuesIH =>
    refine .map (fun t known pair member => suits_of_hasTy (keys t known pair member))
      (fun t known pair member v held => suits_of_hasTy (values t known pair member v held))
      (fun pair member => ?_) fun pair member => each_of_declared
        (fun t known => valuesIH t known pair member) fun none => unsetValue none pair member
    cases ownKey with
    | none =>
      rw [unsetKey rfl] at member
      cases member
    | some t => exact keysIH t rfl pair member
  | entry keptKey keptValue keyHalf valueHalf unsetKey unsetValue keyIH valueIH =>
    exact .entry (fun t known v held => suits_of_hasTy (keyHalf t known v held))
      (fun t known v held => suits_of_hasTy (valueHalf t known v held))
      (each_of_declared keyIH unsetKey) (each_of_declared valueIH unsetValue)

/-- Casts to complete types give such values. -/
theorem told_of_cast {t : Ty} {v w : Value} (complete : t.isComplete = true)
    (held : cast t v = .ok w) : Told w := by
  have has := hasTy_of_settled (settled_of_cast held)
  refine ⟨?_, wellTyped_of_hasTy has⟩
  rw [Ty.eq_of_suits complete (suits_of_hasTy has)]
  exact complete

/-! ### Casting contents -/

theorem exists_castSlot {known : Option Ty} {slot : Slot}
    (each : ∀ t ∈ known, ∀ v ∈ slot, ∃ w, cast t v = .ok w) :
    ∃ out, castSlot known slot = .ok out := by
  cases slot with
  | none => exact ⟨none, rfl⟩
  | some v =>
    cases known with
    | none => exact ⟨some v, rfl⟩
    | some t =>
      obtain ⟨w, held⟩ := each t rfl v rfl
      exact ⟨some w, map_eq_ok.mpr ⟨w, held, rfl⟩⟩

theorem exists_castItems {t : Ty} {items : List Slot}
    (each : ∀ slot ∈ items, ∀ v ∈ slot, ∃ w, cast t v = .ok w) :
    ∃ out, castItems t items = .ok out := by
  rw [castItems_eq]
  refine exists_mapM_iff.mpr fun slot member => exists_castSlot ?_
  rintro u ⟨⟩
  exact each slot member

theorem exists_castPairs {keyTy : Ty} {valueTy : Option Ty} {pairs : List (Value × Slot)}
    (keys : ∀ pair ∈ pairs, ∃ w, cast keyTy pair.1 = .ok w)
    (values : ∀ t ∈ valueTy, ∀ pair ∈ pairs, ∀ v ∈ pair.2, ∃ w, cast t v = .ok w) :
    ∃ out, castPairs keyTy valueTy pairs = .ok out := by
  induction pairs with
  | nil => exact ⟨[], rfl⟩
  | cons pair rest ih =>
    obtain ⟨key, castKey⟩ := keys pair List.mem_cons_self
    obtain ⟨value, castValue⟩ := exists_castSlot fun t known =>
      values t known pair List.mem_cons_self
    obtain ⟨more, castRest⟩ := ih (fun other member => keys other (List.mem_cons_of_mem _ member))
      fun t known other member => values t known other (List.mem_cons_of_mem _ member)
    exact ⟨(key, value) :: more, by rw [castPairs, castKey, castValue, castRest]; rfl⟩

/-! ### Casting to the own type -/

/-- What suits a complete type has it, and is cast to it as to its own. -/
theorem exists_cast_suited {t : Ty} {v : Value} (complete : t.isComplete = true)
    (suits : Ty.Suits t v.ty) (own : v.ty.isComplete = true → ∃ w, cast v.ty v = .ok w) :
    ∃ w, cast t v = .ok w := by
  obtain rfl := Ty.eq_of_suits complete suits
  exact own complete

theorem exists_castItems_suited {t : Ty} {items : List Slot} (complete : t.isComplete = true)
    (suited : ∀ slot ∈ items, ∀ v ∈ slot, Ty.Suits t v.ty)
    (own : ∀ slot ∈ items, ∀ v ∈ slot, v.ty.isComplete = true → ∃ w, cast v.ty v = .ok w) :
    ∃ out, castItems t items = .ok out :=
  exists_castItems fun slot member v held =>
    exists_cast_suited complete (suited slot member v held) (own slot member v held)

/-- The half of an entry has the type that the entry has for it, declared or not. -/
theorem ty_of_half {own : Option Ty} {half : Slot} {t : Ty}
    (known : own.or (slotTy? half) = some t) (complete : t.isComplete = true)
    (suited : ∀ u ∈ own, ∀ v ∈ half, Ty.Suits u v.ty) : ∀ v ∈ half, v.ty = t := by
  rintro v ⟨⟩
  cases own with
  | none => exact Option.some.inj known
  | some u =>
    cases known
    exact Ty.eq_of_suits complete (suited t rfl v rfl)

theorem exists_cast_half {own : Option Ty} {half : Slot} {t : Ty}
    (known : own.or (slotTy? half) = some t) (complete : t.isComplete = true)
    (suited : ∀ u ∈ own, ∀ v ∈ half, Ty.Suits u v.ty)
    (each : ∀ v ∈ half, v.ty.isComplete = true → ∃ w, cast v.ty v = .ok w) :
    ∀ v ∈ half, ∃ w, cast t v = .ok w := by
  intro v held
  obtain rfl := ty_of_half known complete suited v held
  exact each v held complete

theorem exists_of_complete {slot : Option Ty} (complete : Ty.isCompleteSlot slot = true) :
    ∃ t, slot = some t ∧ t.isComplete = true := by
  cases slot with
  | none => cases complete
  | some t => exact ⟨t, rfl, complete⟩

theorem exists_cast_scalar {v : Value} {s : Scalar} (kind : v.kind = .scalar s) :
    ∃ w, cast v.ty v = .ok w := by
  cases v with
  | integer | float | double | string | entity | position => exact ⟨_, rfl⟩
  | list | iterator | map | entry => cases kind

/-- A value whose types tell all about its contents can be cast to its own type. -/
theorem exists_cast_own {v : Value} (typed : WellTyped v) (complete : v.ty.isComplete = true) :
    ∃ w, cast v.ty v = .ok w := by
  induction typed with
  | scalar kind => exact exists_cast_scalar kind
  | list suited contents ih =>
    obtain ⟨t, rfl, known⟩ := exists_of_complete complete
    obtain ⟨out, held⟩ := exists_castItems_suited known (suited t rfl) ih
    exact ⟨.list (some t) out, map_eq_ok.mpr ⟨out, held, rfl⟩⟩
  | iterator suited contents ih =>
    obtain ⟨t, rfl, known⟩ := exists_of_complete complete
    obtain ⟨out, held⟩ := exists_castItems_suited known (suited t rfl) ih
    exact ⟨.iterator (some t) out, map_eq_ok.mpr ⟨out, held, rfl⟩⟩
  | @map ownKey ownValue pairs suitedKeys suitedValues keys values keyIH valueIH =>
    obtain ⟨completeKey, completeValue⟩ := Bool.and_eq_true_iff.mp complete
    obtain ⟨keyTy, rfl, knownKey⟩ := exists_of_complete completeKey
    obtain ⟨valueTy, rfl, knownValue⟩ := exists_of_complete completeValue
    obtain ⟨out, held⟩ : ∃ out, castPairs keyTy (some valueTy) pairs = .ok out := by
      refine exists_castPairs (fun pair member => ?_) ?_
      · exact exists_cast_suited knownKey (suitedKeys keyTy rfl pair member) (keyIH pair member)
      · rintro t ⟨⟩ pair member v inside
        exact exists_cast_suited knownValue (suitedValues valueTy rfl pair member v inside)
          (valueIH pair member v inside)
    exact ⟨.map (some keyTy) (some valueTy) (insertAll [] out),
      map_eq_ok.mpr ⟨insertAll [] out, map_eq_ok.mpr ⟨out, held, rfl⟩, rfl⟩⟩
  | @entry ownKey ownValue key value suitedKey suitedValue keyHalf valueHalf keyIH valueIH =>
    obtain ⟨completeKey, completeValue⟩ := Bool.and_eq_true_iff.mp complete
    obtain ⟨keyTy, knownKey, completeKey⟩ := exists_of_complete completeKey
    obtain ⟨valueTy, knownValue, completeValue⟩ := exists_of_complete completeValue
    obtain ⟨newKey, castKey⟩ : ∃ out, castSlot (some keyTy) key = .ok out := by
      refine exists_castSlot ?_
      rintro t ⟨⟩
      exact exists_cast_half knownKey completeKey suitedKey keyIH
    obtain ⟨newValue, castValue⟩ : ∃ out, castSlot (some valueTy) value = .ok out := by
      refine exists_castSlot ?_
      rintro t ⟨⟩
      exact exists_cast_half knownValue completeValue suitedValue valueIH
    refine ⟨.entry (some keyTy) (some valueTy) newKey newValue, ?_⟩
    have tys : halfTys (.entry (some keyTy) (some valueTy)) ownKey ownValue key value =
        .ok (some keyTy, some valueTy) := rfl
    rw [ty, knownKey, knownValue, cast, tys, ok_bind]
    dsimp only
    rw [castKey, ok_bind, castValue]
    rfl

theorem wellTyped_halves {keyTy valueTy : Option Ty} {key value : Slot}
    (typed : WellTyped (.entry keyTy valueTy key value)) :
    ((∀ t ∈ keyTy, ∀ v ∈ key, Ty.Suits t v.ty) ∧ ∀ v ∈ key, WellTyped v) ∧
      (∀ t ∈ valueTy, ∀ v ∈ value, Ty.Suits t v.ty) ∧ ∀ v ∈ value, WellTyped v := by
  cases typed with
  | scalar kind => cases kind
  | entry suitedKey suitedValue keyHalf valueHalf =>
    exact ⟨⟨suitedKey, keyHalf⟩, suitedValue, valueHalf⟩

/-- The types of an entry that tell all about its contents do so for its halves. -/
theorem told_halves {keyTy valueTy : Option Ty} {key value : Slot}
    (told : Told (.entry keyTy valueTy key value)) :
    (∀ v ∈ key, Told v) ∧ ∀ v ∈ value, Told v := by
  obtain ⟨completeKey, completeValue⟩ := Bool.and_eq_true_iff.mp told.complete
  obtain ⟨k, knownKey, completeKey⟩ := exists_of_complete completeKey
  obtain ⟨u, knownValue, completeValue⟩ := exists_of_complete completeValue
  obtain ⟨⟨suitedKey, keyHalf⟩, suitedValue, valueHalf⟩ := wellTyped_halves told.typed
  refine ⟨fun v held => ⟨?_, keyHalf v held⟩, fun v held => ⟨?_, valueHalf v held⟩⟩
  · rw [ty_of_half knownKey completeKey suitedKey v held]
    exact completeKey
  · rw [ty_of_half knownValue completeValue suitedValue v held]
    exact completeValue

/-! ### Casting along the chain -/

/-- Numbers lower to numbers. -/
theorem isNumeric_of_mem_chain {t u : Ty} (numeric : t.kind.isNumeric = true)
    (member : u ∈ t.chain) : u.kind.isNumeric = true := by
  refine Ty.chain_induction (motive := fun t => t.kind.isNumeric = true) ?_ numeric member
  intro t u lowered numeric
  cases t with
  | scalar s =>
    cases s with
    | integer width =>
      cases width <;> cases lowered <;> rfl
    | float =>
      cases lowered
      rfl
    | double | string | position => cases lowered
    | entity => cases numeric
  | list | iterator | map | entry => cases numeric

/-- What counts as an integer and as a floating-point number can be cast to every kind of number. -/
theorem exists_cast_numeric {v : Value} {t : Ty} {n : Int} {x : Binary64}
    (counts : v.toInteger? = some n) (counted : v.toBinary64? = some x)
    (numeric : t.kind.isNumeric = true) : ∃ w, cast t v = .ok w := by
  cases t with
  | scalar s =>
    rw [cast_scalar, castScalar]
    cases s with
    | integer width => exact ⟨ofInt width n, by rw [toScalar?, counts]; rfl⟩
    | float => exact ⟨.float x.narrow, by rw [toScalar?, counted]; rfl⟩
    | double => exact ⟨.double x, by rw [toScalar?, counted]; rfl⟩
    | string | entity | position => cases numeric
  | list | iterator | map | entry => cases numeric

theorem lowered_list {t : Ty} (other : t ≠ .short) : (Ty.list (some t)).lowered? = some .int := by
  unfold Ty.lowered?
  split <;> simp_all

theorem lowered_iterator {t : Ty} (other : t.kind ≠ .entry) :
    (Ty.iterator (some t)).lowered? = some (.list (some t)) := by
  unfold Ty.lowered?
  split <;> simp_all [Ty.kind]

theorem exists_pairsOfEntries {items : List Slot} (each : ∀ slot ∈ items,
      ∃ keyTy valueTy key value, slot = some (.entry keyTy valueTy (some key) value)) :
    ∃ pairs, pairsOfEntries? items = some pairs := by
  induction items with
  | nil => exact ⟨[], rfl⟩
  | cons item rest ih =>
    obtain ⟨keyTy, valueTy, key, value, rfl⟩ := each item List.mem_cons_self
    obtain ⟨pairs, made⟩ := ih fun slot member => each slot (List.mem_cons_of_mem _ member)
    exact ⟨(key, value) :: pairs, by rw [pairsOfEntries?, made]; rfl⟩

/-- An iterator over entries with keys can be cast to the map that its type lowers to. -/
theorem exists_cast_entries {keyTy valueTy : Option Ty} {items : List Slot}
    (complete : (Ty.entry keyTy valueTy).isComplete = true)
    (typed : WellTyped (.iterator (some (.entry keyTy valueTy)) items))
    (keyed : ∀ slot ∈ items, ∃ ownKey ownValue key value,
      slot = some (.entry ownKey ownValue (some key) value)) :
    ∃ w, cast (.map keyTy valueTy) (.iterator (some (.entry keyTy valueTy)) items) = .ok w := by
  obtain ⟨completeKey, completeValue⟩ := Bool.and_eq_true_iff.mp complete
  obtain ⟨k, rfl, completeKey⟩ := exists_of_complete completeKey
  obtain ⟨u, rfl, completeValue⟩ := exists_of_complete completeValue
  obtain ⟨pairs, made⟩ := exists_pairsOfEntries keyed
  have halves : ∀ pair ∈ pairs, (∃ w, cast k pair.1 = .ok w) ∧
      ∀ v ∈ pair.2, ∃ w, cast u v = .ok w := by
    intro pair member
    obtain ⟨ownKey, ownValue, inside⟩ := entry_of_mem_pairs made pair member
    cases typed with
    | scalar kind => cases kind
    | iterator suited contents =>
      have whole := Ty.eq_of_suits complete (suited _ rfl _ inside _ rfl)
      obtain ⟨knownKey, knownValue⟩ := Ty.entry.inj whole
      obtain ⟨⟨suitedKey, keyHalf⟩, suitedValue, valueHalf⟩ :=
        wellTyped_halves (contents _ inside _ rfl)
      exact ⟨exists_cast_half knownKey completeKey suitedKey
          (fun v held => exists_cast_own (keyHalf v held)) pair.1 rfl,
        exists_cast_half knownValue completeValue suitedValue
          fun v held => exists_cast_own (valueHalf v held)⟩
  obtain ⟨out, held⟩ : ∃ out, castPairs k (some u) pairs = .ok out := by
    refine exists_castPairs (fun pair member => (halves pair member).1) ?_
    rintro t ⟨⟩ pair member
    exact (halves pair member).2
  refine ⟨.map (some k) (some u) (insertAll [] out), ?_⟩
  rw [← castEntryPairs_eq made] at held
  have tys (source target : Ty) :
      mapTys source target (some k, some u) (some k, some u) pairs = .ok (k, some u) := rfl
  simp only [cast, made, entryTys, tys, ok_bind, held]
  rfl

/-- Any other iterator can be cast to the list that its type lowers to, and to a number, which is how
much it walks over. -/
theorem exists_cast_walked {t u : Ty} {items : List Slot} (known : u.isComplete = true)
    (typed : WellTyped (.iterator (some u) items)) (member : t ∈ (Ty.list (some u)).chain)
    (other : t ≠ .string) : ∃ w, cast t (.iterator (some u) items) = .ok w := by
  rcases Ty.mem_chain_iff.mp member with rfl | ⟨next, lowered, further⟩
  · cases typed with
    | scalar kind => cases kind
    | iterator suited contents =>
      obtain ⟨out, held⟩ := exists_castItems_suited known (suited u rfl) fun slot member v inside =>
        exists_cast_own (contents slot member v inside)
      exact ⟨.list (some u) out, map_eq_ok.mpr ⟨out, held, rfl⟩⟩
  · by_cases short : u = .short
    · subst short
      cases lowered
      rcases Ty.mem_chain_iff.mp further with rfl | ⟨next, lowered, -⟩
      · exact absurd rfl other
      · cases lowered
    · cases (lowered_list short).symm.trans lowered
      exact exists_cast_numeric rfl rfl (isNumeric_of_mem_chain rfl further)

/-- A value that can stand in for those of a type on its chain can be cast to the type. -/
theorem exists_cast_of_mem_chain {v : Value} {t : Ty} (member : t ∈ v.ty.chain)
    (stands : StandsIn t v) : ∃ w, cast t v = .ok w := by
  obtain ⟨⟨complete, typed⟩, lends⟩ := stands
  rcases Ty.mem_chain_iff.mp member with rfl | ⟨next, lowered, further⟩
  · exact exists_cast_own typed complete
  -- The step below a container is left to the caster of its kind; what comes after it is numbers.
  cases v with
  | integer width n =>
    exact exists_cast_numeric rfl rfl (isNumeric_of_mem_chain rfl member)
  | float x => exact exists_cast_numeric rfl rfl (isNumeric_of_mem_chain rfl member)
  | double | string | position => cases lowered
  | entry => cases lowered
  | entity e =>
    cases lowered
    exact exists_cast_numeric rfl rfl (isNumeric_of_mem_chain rfl further)
  | list own items =>
    obtain ⟨u, rfl, -⟩ := exists_of_complete complete
    by_cases short : u = .short
    · subst short
      cases lowered
      rcases Ty.mem_chain_iff.mp further with rfl | ⟨next, lowered, -⟩
      · exact ⟨_, rfl⟩
      · cases lowered
    · cases (lowered_list short).symm.trans lowered
      exact exists_cast_numeric rfl rfl (isNumeric_of_mem_chain rfl further)
  | iterator own items =>
    obtain ⟨u, rfl, known⟩ := exists_of_complete complete
    by_cases entries : u.kind = .entry
    · cases u with
      | entry keyTy valueTy =>
        cases lowered
        rcases Ty.mem_chain_iff.mp further with rfl | ⟨next, lowered, further⟩
        · exact exists_cast_entries known typed (lends.2 rfl)
        · cases lowered
          exact exists_cast_numeric rfl rfl (isNumeric_of_mem_chain rfl further)
      | scalar | list | iterator | map => cases entries
    · cases (lowered_iterator entries).symm.trans lowered
      exact exists_cast_walked known typed further lends.1
  | map keyTy valueTy pairs =>
    cases lowered
    exact exists_cast_numeric rfl rfl (isNumeric_of_mem_chain rfl further)

end Value
end Immediate
