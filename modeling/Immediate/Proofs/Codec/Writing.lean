import Immediate.Proofs.Codec.RoundTrip
import Immediate.Proofs.StandingIn
/-! What can be written. A value whose contents suit the child types it declares is written under every
type that it suits itself, unless a text or a container in it is too long. If it has the type to the
letter, it is also read back as it was, its declared types included. -/
namespace Immediate

namespace Value

/-- The lengths of all texts and containers in a value have room in four bytes. -/
inductive LengthsFit : Value → Prop where
  | string {s : String} (short : s.utf8ByteSize < Nat.pow 2 32) : LengthsFit (.string s)
  | scalar {v : Value} {s : Scalar} (kind : v.kind = .scalar s) (other : s ≠ .string) : LengthsFit v
  | list {element : Option Ty} {items : List Slot} (short : items.length < Nat.pow 2 32)
    (contents : ∀ slot ∈ items, ∀ v ∈ slot, LengthsFit v) : LengthsFit (.list element items)
  | iterator {element : Option Ty} {items : List Slot} (short : items.length < Nat.pow 2 32)
    (contents : ∀ slot ∈ items, ∀ v ∈ slot, LengthsFit v) : LengthsFit (.iterator element items)
  | map {keyTy valueTy : Option Ty} {pairs : List (Value × Slot)}
    (short : pairs.length < Nat.pow 2 32) (keys : ∀ pair ∈ pairs, LengthsFit pair.1)
    (values : ∀ pair ∈ pairs, ∀ v ∈ pair.2, LengthsFit v) : LengthsFit (.map keyTy valueTy pairs)
  | entry {keyTy valueTy : Option Ty} {key value : Slot} (keyHalf : ∀ v ∈ key, LengthsFit v)
    (valueHalf : ∀ v ∈ value, LengthsFit v) : LengthsFit (.entry keyTy valueTy key value)

end Value

namespace Codec
open Value

theorem exists_encodeLength {length : Nat} (short : length < Nat.pow 2 32) :
    ∃ bytes, encodeLength length = .ok bytes := ⟨_, if_pos short⟩

theorem exists_after (front : List UInt8) {rest : Except CodecError (List UInt8)}
    (written : ∃ bytes, rest = .ok bytes) : ∃ bytes, after front rest = .ok bytes := by
  obtain ⟨bytes, rfl⟩ := written
  exact ⟨_, rfl⟩

theorem exists_both {first second : Except CodecError (List UInt8)}
    (writtenFirst : ∃ bytes, first = .ok bytes) (writtenSecond : ∃ bytes, second = .ok bytes) :
    ∃ bytes, both first second = .ok bytes := by
  obtain ⟨left, rfl⟩ := writtenFirst
  obtain ⟨right, rfl⟩ := writtenSecond
  exact ⟨_, rfl⟩

theorem exists_encodeSlot {known : Option Ty} {slot : Slot}
    (written : ∀ v ∈ slot, ∃ bytes, encodeValue known v = .ok bytes) :
    ∃ bytes, encodeSlot known slot = .ok bytes := by
  cases slot with
  | none => exact ⟨_, rfl⟩
  | some v =>
    rw [encodeSlot_some]
    exact exists_after [present] (written v rfl)

theorem exists_encodeItems {known : Option Ty} {items : List Slot}
    (written : ∀ slot ∈ items, ∃ bytes, encodeSlot known slot = .ok bytes) :
    ∃ bytes, encodeItems known items = .ok bytes := by
  induction items with
  | nil => exact ⟨_, rfl⟩
  | cons item rest ih =>
    exact exists_both (written item List.mem_cons_self)
      (ih fun slot member => written slot (List.mem_cons_of_mem _ member))

theorem exists_encodePairs {keyTy valueTy : Option Ty} {pairs : List (Value × Slot)}
    (keys : ∀ pair ∈ pairs, ∃ bytes, encodeValue keyTy pair.1 = .ok bytes)
    (values : ∀ pair ∈ pairs, ∃ bytes, encodeSlot valueTy pair.2 = .ok bytes) :
    ∃ bytes, encodePairs keyTy valueTy pairs = .ok bytes := by
  induction pairs with
  | nil => exact ⟨_, rfl⟩
  | cons pair rest ih =>
    rw [encodePairs_cons]
    have head := exists_both (keys pair List.mem_cons_self) (values pair List.mem_cons_self)
    exact exists_both head (ih (fun other member => keys other (List.mem_cons_of_mem _ member))
      fun other member => values other (List.mem_cons_of_mem _ member))

private theorem exists_encode_scalar {s : Scalar} {v : Value} (kind : v.kind = .scalar s)
    (lengths : LengthsFit v) : ∃ bytes, encodePayload (.scalar s) v = .ok bytes := by
  cases v with
  | string text =>
    cases kind
    cases lengths with
    | string short =>
      rw [encodePayload, if_pos rfl]
      exact exists_both (exists_encodeLength short) ⟨_, rfl⟩
    | scalar kind other =>
      cases kind
      exact absurd rfl other
  | integer | float | double | entity | position =>
    cases kind
    rw [encodePayload, if_pos rfl]
    exact ⟨_, rfl⟩
  | list | iterator | map | entry => cases kind

/-- That a value can be written under every type that it suits. -/
private def Writable (v : Value) : Prop :=
  ∀ {t : Ty}, Ty.Suits t v.ty → ∃ bytes, encodePayload t v = .ok bytes

private theorem exists_encodeValue {known : Option Ty} {v : Value}
    (suits : ∀ t ∈ known, Ty.Suits t v.ty) (writable : Writable v) :
    ∃ bytes, encodeValue known v = .ok bytes := by
  cases known with
  | some t => exact writable (suits t rfl)
  | none => exact exists_after _ (writable (Ty.suits_refl v.ty))

private theorem exists_encode_contents {known : Option Ty} {slot : Slot}
    (suited : ∀ t ∈ known, ∀ v ∈ slot, Ty.Suits t v.ty) (writable : ∀ v ∈ slot, Writable v) :
    ∃ bytes, encodeSlot known slot = .ok bytes :=
  exists_encodeSlot fun v held =>
    exists_encodeValue (fun t isKnown => suited t isKnown v held) (writable v held)

/-- The half of an entry suits what the writer takes for its type. -/
private theorem suited_half {wanted own : Option Ty} {half : Slot}
    (kept : Keeps wanted (own.or (slotTy? half))) (suited : ∀ t ∈ own, ∀ v ∈ half, Ty.Suits t v.ty) :
    ∀ t ∈ wanted.or own, ∀ v ∈ half, Ty.Suits t v.ty := by
  cases wanted with
  | none => exact suited
  | some t =>
    rintro u ⟨⟩ v held
    cases own with
    | some t' =>
      cases kept t rfl
      exact suited t rfl v held
    | none =>
      cases held
      cases kept t rfl
      exact Ty.suits_refl v.ty

/-- A value can be written under every type that it suits, if its contents suit their types. -/
theorem exists_encodePayload {t : Ty} {v : Value} (typed : WellTyped v) (lengths : LengthsFit v)
    (suits : Ty.Suits t v.ty) : ∃ bytes, encodePayload t v = .ok bytes := by
  induction typed generalizing t with
  | scalar kind =>
    obtain rfl := Ty.eq_of_suits_scalar kind suits
    exact exists_encode_scalar kind lengths
  | list suited contents ih =>
    cases lengths with
    | scalar kind => cases kind
    | list short below =>
      cases t with
      | list wanted =>
        refine exists_after _ (exists_both (exists_encodeLength short) (exists_encodeItems ?_))
        rw [or_of_keeps suits]
        exact fun slot member => exists_encode_contents (fun t known => suited t known slot member)
          fun v held _ => ih slot member v held (below slot member v held)
      | _ => cases suits
  | iterator suited contents ih =>
    cases lengths with
    | scalar kind => cases kind
    | iterator short below =>
      cases t with
      | iterator wanted =>
        refine exists_after _ (exists_both (exists_encodeLength short) (exists_encodeItems ?_))
        rw [or_of_keeps suits]
        exact fun slot member => exists_encode_contents (fun t known => suited t known slot member)
          fun v held _ => ih slot member v held (below slot member v held)
      | _ => cases suits
  | map suitedKeys suitedValues keys values keyIH valueIH =>
    cases lengths with
    | scalar kind => cases kind
    | map short keysBelow valuesBelow =>
      cases t with
      | map wantedKey wantedValue =>
        refine exists_after _ (exists_both (exists_encodeLength short) ?_)
        rw [or_of_keeps suits.1, or_of_keeps suits.2]
        refine exists_encodePairs (fun pair member => ?_) fun pair member => ?_
        · exact exists_encodeValue (fun t known => suitedKeys t known pair member)
            (keyIH pair member (keysBelow pair member))
        · exact exists_encode_contents (fun t known => suitedValues t known pair member)
            fun v held _ => valueIH pair member v held (valuesBelow pair member v held)
      | _ => cases suits
  | entry suitedKey suitedValue keyHalf valueHalf keyIH valueIH =>
    cases lengths with
    | scalar kind => cases kind
    | entry keyBelow valueBelow =>
      cases t with
      | entry wantedKey wantedValue =>
        refine exists_after _ (exists_both ?_ ?_)
        · exact exists_encode_contents (suited_half suits.1 suitedKey)
            fun v held _ => keyIH v held (keyBelow v held)
        · exact exists_encode_contents (suited_half suits.2 suitedValue)
            fun v held _ => valueIH v held (valueBelow v held)
      | _ => cases suits

theorem exists_encode_of_suits {t : TypedValue} (suits : ∀ v ∈ t.slot, Ty.Suits t.ty v.ty)
    (typed : ∀ v ∈ t.slot, WellTyped v) (lengths : ∀ v ∈ t.slot, LengthsFit v) :
    ∃ bytes, encode t = .ok bytes :=
  exists_after _ (exists_encodeSlot fun v held =>
    exists_encodePayload (typed v held) (lengths v held) (suits v held))

theorem exists_encode_of_hasTy {t : TypedValue} (has : ∀ v ∈ t.slot, HasTy t.ty v)
    (lengths : ∀ v ∈ t.slot, LengthsFit v) : ∃ bytes, encode t = .ok bytes :=
  exists_encode_of_suits (fun v held => suits_of_hasTy (has v held))
    (fun v held => wellTyped_of_hasTy (has v held)) lengths

/-- A typed value of a complete type that its slot fits can be written. -/
theorem exists_encode {t : TypedValue} (fits : SlotFits (some t.ty) t.slot)
    (complete : t.ty.isComplete = true) (lengths : ∀ v ∈ t.slot, LengthsFit v) :
    ∃ bytes, encode t = .ok bytes :=
  exists_encode_of_hasTy (fun v held => hasTy_of_fits (fits t.ty rfl v held) complete) lengths

/-! ### Reading back to the letter -/

theorem stampedSlot_of_declared {known : Option Ty} {slot : Slot}
    (each : ∀ t ∈ known, ∀ v ∈ slot, stamped t v = v) (unset : known = none → slot = none) :
    stampedSlot known slot = slot := by
  cases slot with
  | none => rfl
  | some v =>
    cases known with
    | none => cases unset rfl
    | some t => exact congrArg some (each t rfl v rfl)

theorem stampedItems_of_each {known : Option Ty} {items : List Slot}
    (each : ∀ slot ∈ items, stampedSlot known slot = slot) : stampedItems known items = items := by
  induction items with
  | nil => rfl
  | cons item rest ih =>
    rw [stampedItems, each item List.mem_cons_self,
      ih fun slot member => each slot (List.mem_cons_of_mem _ member)]

theorem stampedPairs_of_each {knownKey knownValue : Option Ty} {pairs : List (Value × Slot)}
    (keys : ∀ pair ∈ pairs, stamped (knownKey.getD pair.1.ty) pair.1 = pair.1)
    (values : ∀ pair ∈ pairs, stampedSlot knownValue pair.2 = pair.2) :
    stampedPairs knownKey knownValue pairs = pairs := by
  rw [stampedPairs_eq_map]
  exact (List.map_congr_left fun pair member =>
    Prod.ext (keys pair member) (values pair member)).trans (List.map_id pairs)

/-- A reader sees a value that has the type to the letter as it is. -/
theorem stamped_of_hasTy {t : Ty} {v : Value} (has : HasTy t v) : stamped t v = v := by
  induction has with
  | scalar kind => exact stamped_scalar kind _
  | list kept contents unset ih =>
    rw [stamped, or_of_keeps kept, stampedItems_of_each fun slot member =>
      stampedSlot_of_declared (fun t known => ih t known slot member)
        fun none => unset none slot member]
  | iterator kept contents unset ih =>
    rw [stamped, or_of_keeps kept, stampedItems_of_each fun slot member =>
      stampedSlot_of_declared (fun t known => ih t known slot member)
        fun none => unset none slot member]
  | @map wantedKey wantedValue ownKey ownValue pairs keptKey keptValue keys values unsetKey unsetValue
      keyIH valueIH =>
    have keysRead : ∀ pair ∈ pairs, stamped (ownKey.getD pair.1.ty) pair.1 = pair.1 := by
      intro pair member
      cases ownKey with
      | none =>
        rw [unsetKey rfl] at member
        cases member
      | some t => exact keyIH t rfl pair member
    rw [stamped, or_of_keeps keptKey, or_of_keeps keptValue,
      stampedPairs_of_each keysRead fun pair member =>
        stampedSlot_of_declared (fun t known => valueIH t known pair member)
          fun none => unsetValue none pair member]
  | entry keptKey keptValue keyHalf valueHalf unsetKey unsetValue keyIH valueIH =>
    rw [stamped, or_of_keeps keptKey, or_of_keeps keptValue, stampedSlot_of_declared keyIH unsetKey,
      stampedSlot_of_declared valueIH unsetValue]

/-- Bytes are decoded to what their two parts are read as, whatever the fuel is. -/
theorem decode_of_reads {ty : Ty} {slot : Slot} {front tail : List UInt8}
    (typed : ∀ {fuel}, front.length ≤ fuel → Reads (readTy fuel) front ty)
    (contents : ∀ {fuel}, 3 * tail.length ≤ fuel → Reads (readSlot fuel (some ty)) tail slot) :
    decode (front ++ tail) = .ok ⟨ty, slot⟩ := by
  have frontFits : front.length ≤ 3 * (front ++ tail).length + 3 := by
    rw [List.length_append]
    omega
  have tailFits : 3 * tail.length ≤ 3 * (front ++ tail).length + 3 := by
    rw [List.length_append]
    omega
  have read : Reads (do
      let ty ← readTy (3 * (front ++ tail).length + 3)
      let slot ← readSlot (3 * (front ++ tail).length + 3) (some ty)
      return (ty, slot) : Reader (Ty × Slot)) (front ++ tail) (ty, slot) :=
    (typed frontFits).bind (contents tailFits).bind_pure
  have run := read [] 0
  rw [List.append_nil] at run
  unfold decode
  dsimp only
  rw [run]
  rfl

/-- What was written is decoded to the same type and what a reader sees of the value. -/
theorem decode_of_encode {t : TypedValue} {bytes : List UInt8} (keyed : SlotKeyed t.slot)
    (written : encode t = .ok bytes) :
    decode bytes = .ok ⟨t.ty, stampedSlot (some t.ty) t.slot⟩ := by
  obtain ⟨tail, payload, rfl⟩ := after_eq_ok.mp written
  exact decode_of_reads (reads_topTy t.ty) fun enough =>
    reads_slot (fun v held => readsBack (keyed v held)) payload enough

theorem decode_of_hasTy {t : TypedValue} {bytes : List UInt8} (keyed : SlotKeyed t.slot)
    (has : ∀ v ∈ t.slot, HasTy t.ty v) (written : encode t = .ok bytes) : decode bytes = .ok t := by
  have same : stampedSlot (some t.ty) t.slot = t.slot := by
    refine stampedSlot_of_declared ?_ nofun
    rintro u ⟨⟩ v held
    exact stamped_of_hasTy (has v held)
  rw [decode_of_encode keyed written, same]

/-- A successful cast gives a value that has the type to the letter, whatever its source was. So a
typed value that could be made is written, unless it is too long, and read back as it was. -/
theorem exact_of_cast (ty : Ty) :
    (∀ {v w : Value}, Value.cast ty v = .ok w → HasTy ty w) ∧
      ∀ {slot : Slot} {made : TypedValue}, TypedValue.ofSlot ty slot = .ok made →
        (∀ v ∈ made.slot, LengthsFit v) →
          ∃ bytes, encode made = .ok bytes ∧ decode bytes = .ok made := by
  refine ⟨fun held => hasTy_of_settled (settled_of_cast held), ?_⟩
  intro slot made held lengths
  obtain ⟨out, cast, rfl⟩ := Outcome.map_eq_ok.mp held
  have settled : ∀ w ∈ out, Settled ty w := by
    rintro w ⟨⟩
    rcases castSlot_eq_ok cast with ⟨impossible, -⟩ | ⟨t, ⟨⟩, ⟨-, impossible⟩ | ⟨v, w', -, ⟨⟩, held⟩⟩
    · cases impossible
    · cases impossible
    · exact settled_of_cast held
  have has (w : Value) (member : w ∈ out) : HasTy ty w := hasTy_of_settled (settled w member)
  have keyed : SlotKeyed out := fun w member => keyed_of_settled (settled w member)
  obtain ⟨bytes, written⟩ := exists_encode_of_hasTy (t := ⟨ty, out⟩) has lengths
  exact ⟨bytes, written, decode_of_hasTy (t := ⟨ty, out⟩) keyed has written⟩

/-- A map whose key is not of the declared type, and whose values are all missing. The key is cast,
and the values go without a type through the bytes and back. -/
theorem exact_of_cast_missing :
    let source : Value := .map (some .int) none [(.integer .byte 1#8, none)]
    let made : Value := .map (some .int) none [(.integer .int 1#32, none)]
    Value.cast (.map none none) source = .ok made ∧ HasTy (.map none none) made ∧
      ∃ bytes, encode ⟨.map none none, some made⟩ = .ok bytes ∧
        decode bytes = .ok ⟨.map none none, some made⟩ := by
  intro source made
  have held : Value.cast (.map none none) source = .ok made := rfl
  have lengths : ∀ v ∈ some made, LengthsFit v := by
    rintro v ⟨⟩
    refine .map (by decide) ?_ ?_
    · intro pair member
      cases List.mem_singleton.mp member
      exact .scalar rfl nofun
    · intro pair member v held
      cases List.mem_singleton.mp member
      cases held
  have whole : TypedValue.ofSlot (.map none none) (some source) =
      .ok ⟨.map none none, some made⟩ := rfl
  exact ⟨held, (exact_of_cast _).1 held, (exact_of_cast _).2 whole lengths⟩

end Codec
end Immediate
