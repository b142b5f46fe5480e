import Immediate.Proofs.Number.Widening
import Immediate.Proofs.Typing
/-! A cast settles a value. What it leaves has every child type filled in, but for those of nothing,
and a second cast finds the same child types there, casts the contents to the types they have and
inserts pairs whose keys are already apart. So it changes nothing, wherever the first cast took its
child types from. -/
namespace Immediate.Value

open Outcome

/-- That a key is not the same as an earlier one. Insertion asks nothing else of a key. -/
def SpelledApart (pairs : List (Value × Slot)) : Prop :=
  pairs.Pairwise fun first second => same second.1 first.1 = false

/-- What a cast to a type leaves: contents that are settled in the child types it declares, maps
without the same key twice, and nothing where no child type is declared. -/
inductive Settled : Ty → Value → Prop where
  | scalar {s : Scalar} {v : Value} (steady : v.toScalar? s = some v) : Settled (.scalar s) v
  | list {wanted : Option Ty} {t : Ty} {items : List Slot} (kept : Keeps wanted (some t))
    (contents : ∀ slot ∈ items, ∀ v ∈ slot, Settled t v) :
    Settled (.list wanted) (.list (some t) items)
  | iterator {wanted : Option Ty} {t : Ty} {items : List Slot} (kept : Keeps wanted (some t))
    (contents : ∀ slot ∈ items, ∀ v ∈ slot, Settled t v) :
    Settled (.iterator wanted) (.iterator (some t) items)
  | map {wantedKey wantedValue valueTy : Option Ty} {keyTy : Ty} {pairs : List (Value × Slot)}
    (keptKey : Keeps wantedKey (some keyTy)) (keptValue : Keeps wantedValue valueTy)
    (apart : SpelledApart pairs) (keys : ∀ pair ∈ pairs, Settled keyTy pair.1)
    (values : ∀ t ∈ valueTy, ∀ pair ∈ pairs, ∀ v ∈ pair.2, Settled t v)
    (unset : valueTy = none → ∀ pair ∈ pairs, pair.2 = none) :
    Settled (.map wantedKey wantedValue) (.map (some keyTy) valueTy pairs)
  | entry {wantedKey wantedValue keyTy valueTy : Option Ty} {key value : Slot}
    (keptKey : Keeps wantedKey keyTy) (keptValue : Keeps wantedValue valueTy)
    (keyHalf : ∀ t ∈ keyTy, ∀ v ∈ key, Settled t v)
    (valueHalf : ∀ t ∈ valueTy, ∀ v ∈ value, Settled t v)
    (unsetKey : keyTy = none → key = none) (unsetValue : valueTy = none → value = none) :
    Settled (.entry wantedKey wantedValue) (.entry keyTy valueTy key value)

/-! ### Insertion -/

/-- The keys and the slots that insertion leaves are some of those there were. -/
theorem mem_insertAll {pairs more : List (Value × Slot)} {pair : Value × Slot}
    (member : pair ∈ insertAll pairs more) :
    (∃ other ∈ pairs ++ more, other.1 = pair.1) ∧ ∃ other ∈ pairs ++ more, other.2 = pair.2 := by
  induction more generalizing pairs with
  | nil =>
    have inside : pair ∈ pairs ++ [] := List.mem_append_left _ member
    exact ⟨⟨pair, inside, rfl⟩, pair, inside, rfl⟩
  | cons head rest ih =>
    have step (other : Value × Slot) (inside : other ∈ insert pairs head.1 head.2 ++ rest) :
        (∃ source ∈ pairs ++ head :: rest, source.1 = other.1) ∧
          ∃ source ∈ pairs ++ head :: rest, source.2 = other.2 := by
      have new : head ∈ pairs ++ head :: rest := List.mem_append_right _ List.mem_cons_self
      have old {source : Value × Slot} (held : source ∈ pairs) : source ∈ pairs ++ head :: rest :=
        List.mem_append_left _ held
      rcases List.mem_append.mp inside with inserted | later
      · rcases mem_insert inserted with held | ⟨slot, ⟨source, held, key⟩ | ⟨key, -⟩⟩
        · exact ⟨⟨other, old held, rfl⟩, other, old held, rfl⟩
        · exact ⟨⟨source, old held, key⟩, head, new, slot.symm⟩
        · exact ⟨⟨head, new, key.symm⟩, head, new, slot.symm⟩
      · have kept : other ∈ pairs ++ head :: rest :=
          List.mem_append_right _ (List.mem_cons_of_mem _ later)
        exact ⟨⟨other, kept, rfl⟩, other, kept, rfl⟩
    obtain ⟨⟨first, inFirst, sameKey⟩, second, inSecond, sameSlot⟩ := ih member
    obtain ⟨⟨key, inKey, equalKey⟩, -⟩ := step first inFirst
    obtain ⟨-, slot, inSlot, equalSlot⟩ := step second inSecond
    exact ⟨⟨key, inKey, equalKey.trans sameKey⟩, slot, inSlot, equalSlot.trans sameSlot⟩

theorem SpelledApart.insert {pairs : List (Value × Slot)} (apart : SpelledApart pairs)
    (key : Value) (slot : Slot) : SpelledApart (insert pairs key slot) := by
  induction pairs with
  | nil => exact List.pairwise_singleton ..
  | cons head rest ih =>
    obtain ⟨headApart, restApart⟩ := List.pairwise_cons.mp apart
    unfold Value.insert
    by_cases here : same key head.1 = true
    · rw [if_pos here]
      exact List.pairwise_cons.mpr ⟨headApart, restApart⟩
    · rw [if_neg here]
      refine List.pairwise_cons.mpr ⟨fun pair member => ?_, ih restApart⟩
      rcases mem_insert member with inside | ⟨-, ⟨spelled, inside, equal⟩ | ⟨equal, -⟩⟩
      · exact headApart pair inside
      · rw [← equal]
        exact headApart spelled inside
      · rw [equal]
        exact eq_false_of_ne_true here

theorem SpelledApart.insertAll {pairs : List (Value × Slot)} (apart : SpelledApart pairs)
    (more : List (Value × Slot)) : SpelledApart (insertAll pairs more) := by
  induction more generalizing pairs with
  | nil => exact apart
  | cons pair rest ih => exact ih (apart.insert pair.1 pair.2)

/-! ### What a cast leaves -/

/-- What a value counts as where a scalar is wanted counts as itself. -/
theorem toScalar?_idem {s : Scalar} {v w : Value} (converted : v.toScalar? s = some w) :
    w.toScalar? s = some w := by
  cases s with
  | integer width =>
    obtain ⟨n, -, rfl⟩ := Option.map_eq_some_iff.mp converted
    simp only [ofInt, toScalar?, toInteger?, Option.map_some, BitVec.ofInt_toInt]
  | float =>
    obtain ⟨x, -, rfl⟩ := Option.map_eq_some_iff.mp converted
    simp only [toScalar?, toBinary64?, Option.map_some, Binary32.narrow_widen_narrow]
  | double | string =>
    obtain ⟨x, -, rfl⟩ := Option.map_eq_some_iff.mp converted
    rfl
  | entity =>
    cases v with
    | entity e =>
      cases converted
      rfl
    | string text =>
      obtain ⟨e, -, rfl⟩ := Option.map_eq_some_iff.mp converted
      rfl
    | _ => cases converted
  | position =>
    cases v with
    | position p =>
      cases converted
      rfl
    | _ => cases converted

private theorem settled_of_carried {known : Option Ty} {source out : Slot}
    (carried : Carried (fun t _ w => Settled t w) known source out) :
    ∀ t ∈ known, ∀ v ∈ out, Settled t v := by
  intro t isKnown w member
  obtain ⟨v, -, -, settled⟩ := carried.each t isKnown w member
  exact settled

private theorem unset_of_carried {source out : Slot}
    (carried : Carried (fun t _ w => Settled t w) none source out) (unset : source = none) :
    out = none := by
  subst unset
  exact (Except.ok.inj carried.cast).symm

private theorem settled_alongCasts : AlongCasts fun t _ w => Settled t w where
  scalar converted := .scalar (toScalar?_idem converted)
  list kept _ _ carried := by
    refine .list kept fun slot member v held => ?_
    obtain ⟨source, -, settled⟩ := carried slot member
    exact settled_of_carried settled _ rfl v held
  iterator kept _ _ carried := by
    refine .iterator kept fun slot member v held => ?_
    obtain ⟨source, -, settled⟩ := carried slot member
    exact settled_of_carried settled _ rfl v held
  map keptKey keptValue unset _ _ carried := by
    refine .map keptKey keptValue (SpelledApart.insertAll List.Pairwise.nil _) ?_ ?_ ?_
    · intro pair member
      obtain ⟨⟨other, inside, equal⟩, -⟩ := mem_insertAll member
      obtain ⟨source, -, ⟨-, settled⟩, -⟩ := carried other inside
      rw [← equal]
      exact settled
    · intro t known pair member v held
      obtain ⟨-, other, inside, equal⟩ := mem_insertAll member
      obtain ⟨source, -, -, settled⟩ := carried other inside
      rw [← equal] at held
      exact settled_of_carried settled t known v held
    · rintro rfl pair member
      obtain ⟨-, other, inside, equal⟩ := mem_insertAll member
      obtain ⟨source, inPairs, -, value⟩ := carried other inside
      rw [← equal]
      exact unset_of_carried value (unset rfl source inPairs)
  entry keptKey keptValue unsetKey unsetValue carriedKey carriedValue := by
    refine .entry keptKey keptValue (settled_of_carried carriedKey)
      (settled_of_carried carriedValue) ?_ ?_
    · rintro rfl
      exact unset_of_carried carriedKey (unsetKey rfl)
    · rintro rfl
      exact unset_of_carried carriedValue (unsetValue rfl)

theorem settled_of_cast {target : Ty} {v w : Value} (held : cast target v = .ok w) :
    Settled target w :=
  settled_alongCasts.of_cast held

/-! ### Casting what is settled -/

theorem or_of_keeps {wanted own : Option Ty} (kept : Keeps wanted own) : wanted.or own = own := by
  cases wanted with
  | none => rfl
  | some t => exact (kept t rfl).symm

theorem requiredTy_of_keeps {wanted : Option Ty} {t : Ty} (kept : Keeps wanted (some t))
    (error : EvalError) (contents : List Value) :
    requiredTy error wanted (some t) contents = .ok t := by
  unfold requiredTy
  rw [or_of_keeps kept]

theorem optionalTy_of_keeps {wanted own : Option Ty} {contents : List Value}
    (kept : Keeps wanted own) (unset : own = none → contents = []) :
    optionalTy wanted own contents = .ok own := by
  unfold optionalTy
  rw [or_of_keeps kept]
  cases own with
  | some t => rfl
  | none =>
    rw [unset rfl]
    rfl

theorem cast_scalar (s : Scalar) (v : Value) : cast (.scalar s) v = castScalar s v := by
  cases v with
  | entry => cases s <;> rfl
  | _ => rfl

theorem castSlot_of_each {known : Option Ty} {slot : Slot}
    (each : ∀ t ∈ known, ∀ v ∈ slot, cast t v = .ok v) : castSlot known slot = .ok slot := by
  cases slot with
  | none => rfl
  | some v =>
    cases known with
    | none => rfl
    | some t => rw [castSlot, each t rfl v rfl]; rfl

theorem castItems_of_each {t : Ty} {items : List Slot}
    (each : ∀ slot ∈ items, ∀ v ∈ slot, cast t v = .ok v) : castItems t items = .ok items := by
  induction items with
  | nil => rfl
  | cons item rest ih =>
    have head : castSlot (some t) item = .ok item := by
      refine castSlot_of_each ?_
      rintro u ⟨⟩
      exact each item List.mem_cons_self
    rw [castItems, head, ih fun slot member => each slot (List.mem_cons_of_mem _ member)]
    rfl

theorem castPairs_of_each {keyTy : Ty} {valueTy : Option Ty} {pairs : List (Value × Slot)}
    (keys : ∀ pair ∈ pairs, cast keyTy pair.1 = .ok pair.1)
    (values : ∀ t ∈ valueTy, ∀ pair ∈ pairs, ∀ v ∈ pair.2, cast t v = .ok v) :
    castPairs keyTy valueTy pairs = .ok pairs := by
  induction pairs with
  | nil => rfl
  | cons pair rest ih =>
    have tail := ih (fun other member => keys other (List.mem_cons_of_mem _ member))
      fun t known other member => values t known other (List.mem_cons_of_mem _ member)
    have value : castSlot valueTy pair.2 = .ok pair.2 :=
      castSlot_of_each fun t known => values t known pair List.mem_cons_self
    rw [castPairs, keys pair List.mem_cons_self, value, tail]
    rfl

/-- What is settled in a type is cast to it without a change. -/
theorem cast_of_settled {target : Ty} {v : Value} (settled : Settled target v) :
    cast target v = .ok v := by
  induction settled with
  | scalar steady =>
    rw [cast_scalar, castScalar, steady]
  | list kept contents ih =>
    rw [cast, requiredTy_of_keeps kept, ok_bind, castItems_of_each ih]
    rfl
  | iterator kept contents ih =>
    rw [cast, requiredTy_of_keeps kept, ok_bind, castItems_of_each ih]
    rfl
  | @map wantedKey wantedValue valueTy keyTy pairs keptKey keptValue apart keys values unset keysIH
      valuesIH =>
    -- Where no type is declared for the values there are none to take a type from.
    have nothing (none : valueTy = none) : pairs.filterMap (·.2) = [] :=
      List.filterMap_eq_nil_iff.mpr (unset none)
    have inserted : insertAll [] pairs = pairs :=
      insertAll_of_apart (fun _ impossible => absurd impossible List.not_mem_nil) apart
    have tys : mapTys (.map (some keyTy) valueTy) (.map wantedKey wantedValue)
        (wantedKey, wantedValue) (some keyTy, valueTy) pairs = .ok (keyTy, valueTy) := by
      simp only [mapTys, requiredTy_of_keeps keptKey, optionalTy_of_keeps keptValue nothing, ok_bind]
      rfl
    rw [cast, tys, ok_bind]
    dsimp only
    rw [castPairs_of_each keysIH valuesIH]
    exact congrArg (Except.ok ∘ Value.map (some keyTy) valueTy) inserted
  | @entry wantedKey wantedValue keyTy valueTy key value keptKey keptValue keyHalf valueHalf unsetKey
      unsetValue keyIH valueIH =>
    have keyNothing (none : keyTy = none) : key.toList = [] := by rw [unsetKey none]; rfl
    have valueNothing (none : valueTy = none) : value.toList = [] := by rw [unsetValue none]; rfl
    have tys : halfTys (.entry wantedKey wantedValue) keyTy valueTy key value =
        .ok (keyTy, valueTy) := by
      simp only [halfTys, optionalTy_of_keeps keptKey keyNothing,
        optionalTy_of_keeps keptValue valueNothing, ok_bind]
      rfl
    rw [cast, tys, ok_bind]
    dsimp only
    rw [castSlot_of_each keyIH, ok_bind, castSlot_of_each valueIH]
    rfl

/-- A cast value is cast to the same type without a change, all its declared child types included. -/
theorem cast_of_cast {target : Ty} {v w : Value} (held : cast target v = .ok w) :
    cast target w = .ok w :=
  cast_of_settled (settled_of_cast held)

/-- Two entries of a list without a declared type become one pair of a map. The first cast takes the
type of its values from theirs and the second one from the map. -/
theorem cast_of_cast_merged :
    let entries : Value := .list none
      [some (.entry none none (some (.integer .short 1#16)) (some (.integer .int 2#32))),
        some (.entry none none (some (.integer .int 1#32)) (some (.integer .long 3#64)))]
    let merged : Value :=
      .map (some .byte) (some .long) [(.integer .byte 1#8, some (.integer .long 3#64))]
    cast (.map (some .byte) none) entries = .ok merged ∧
      cast (.map (some .byte) none) merged = .ok merged := by
  intro entries merged
  have held : cast (.map (some .byte) none) entries = .ok merged := rfl
  exact ⟨held, cast_of_cast held⟩

end Immediate.Value
