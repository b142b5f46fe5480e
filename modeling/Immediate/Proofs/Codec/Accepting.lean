import Immediate.Proofs.Codec.Writing
/-! What the decoder accepts. Whatever the bytes, a decoded value suits the type it was read under, its
contents suit the child types it declares, its maps keep their keys apart and its lengths fit. So it
can be written again; and what is read back from that is written as the same bytes, since a reader fills
in nothing but what the writer had worked out. -/
namespace Immediate.Codec

open Value

/-- Whatever a reader reads, from whatever bytes, has a property. -/
def Gives {α : Type} (reader : Reader α) (property : α → Prop) : Prop :=
  ∀ input a input', reader.run input = .ok (a, input') → property a

namespace Gives

variable {α β : Type} {reader : Reader α} {next : α → Reader β} {P Q : α → Prop} {R : β → Prop}

theorem any (reader : Reader α) : Gives reader fun _ => True := fun _ _ _ _ => trivial

theorem pure {a : α} (held : P a) : Gives (Pure.pure a) P := by
  intro input b input' run
  cases run
  exact held

theorem bind (first : Gives reader P) (second : ∀ a, P a → Gives (next a) R) :
    Gives (reader >>= next) R := by
  intro input b input' run
  rw [StateT.run_bind] at run
  obtain ⟨⟨a, middle⟩, ran, others⟩ := Outcome.bind_eq_ok.mp run
  exact second a (first input a middle ran) middle b input' others

theorem map {f : α → β} (first : Gives reader P) (second : ∀ a, P a → R (f a)) :
    Gives (f <$> reader) R := by
  rw [map_eq_pure_bind]
  exact first.bind fun a held => pure (second a held)

theorem throw (e : CodecError) : Gives (MonadExcept.throw e : Reader α) P := nofun

theorem outOfBytes : Gives (outOfBytes : Reader α) P := nofun

end Gives

/-! ### Numbers, types and scalars -/

private theorem foldl_bytes_lt (total : Nat) (bytes : List UInt8) :
    bytes.foldl (fun total byte => total * 256 + byte.toNat) total <
      (total + 1) * Nat.pow 256 bytes.length := by
  induction bytes generalizing total with
  | nil => exact Nat.lt_of_lt_of_eq (Nat.lt_succ_self total) (Nat.mul_one _).symm
  | cons byte rest ih =>
    have digit := byte.toNat_lt
    have within : total * 256 + byte.toNat + 1 ≤ (total + 1) * 256 := by omega
    refine Nat.lt_of_lt_of_le (ih (total * 256 + byte.toNat)) ?_
    calc (total * 256 + byte.toNat + 1) * Nat.pow 256 rest.length
        ≤ (total + 1) * 256 * Nat.pow 256 rest.length := Nat.mul_le_mul_right _ within
      _ = (total + 1) * Nat.pow 256 (rest.length + 1) := by
        rw [Nat.mul_assoc]
        exact congrArg ((total + 1) * ·) Nat.pow_succ'.symm

theorem ofBigEndian_lt (bytes : List UInt8) : ofBigEndian bytes < Nat.pow 256 bytes.length :=
  Nat.lt_of_lt_of_eq (foldl_bytes_lt 0 bytes) (Nat.one_mul _)

theorem gives_take (count : Nat) : Gives (take count) fun bytes => bytes.length = count := by
  intro input bytes input' run
  rw [run_take] at run
  split at run
  · cases run
  · rename_i enough
    cases run
    rw [List.length_take] at enough ⊢
    omega

theorem gives_readNat (width : Nat) : Gives (readNat width) fun n => n < Nat.pow 256 width := by
  refine (gives_take width).map fun bytes length => ?_
  rw [← length]
  exact ofBigEndian_lt bytes

/-- The child type of a container is the one it is read under, where that is set. -/
theorem gives_readInlineTy (fuel : Nat) (declared : Option Ty) :
    Gives (readInlineTy fuel declared) (Keeps declared) := by
  cases declared with
  | some t => exact .pure fun _ known => known
  | none => exact fun _ _ _ _ => nofun

private theorem utf8ByteSize_of_fromUTF8 {bytes : List UInt8} {s : String}
    (read : String.fromUTF8? ⟨bytes.toArray⟩ = some s) : s.utf8ByteSize = bytes.length := by
  unfold String.fromUTF8? at read
  split at read
  · cases read
    rfl
  · cases read

theorem gives_readScalar (s : Scalar) :
    Gives (readScalar s) fun v => v.kind = .scalar s ∧ LengthsFit v := by
  have fixed {v : Value} (kind : v.kind = .scalar s) (other : s ≠ .string) :
      v.kind = .scalar s ∧ LengthsFit v := ⟨kind, .scalar kind other⟩
  cases s with
  | integer width => exact (Gives.any _).bind fun n _ => .pure (fixed rfl nofun)
  | float => exact (Gives.any _).bind fun n _ => .pure (fixed rfl nofun)
  | double => exact (Gives.any _).bind fun n _ => .pure (fixed rfl nofun)
  | entity => exact (Gives.any _).bind fun n _ => .pure (fixed rfl nofun)
  | position =>
    exact (Gives.any _).bind fun x _ => (Gives.any _).bind fun y _ => (Gives.any _).bind fun z _ =>
      .pure (fixed rfl nofun)
  | string =>
    refine (gives_readNat 4).bind fun length short => (Gives.any position).bind fun offset _ => ?_
    refine (gives_take length).bind fun bytes taken => ?_
    split
    · rename_i s read
      refine .pure ⟨rfl, .string ?_⟩
      rw [utf8ByteSize_of_fromUTF8 read, taken]
      exact short
    · exact .throw _

/-! ### Values -/

/-- What holds of a value that was read under a type. -/
structure Accepted (t : Ty) (v : Value) : Prop where
  suits : Ty.Suits t v.ty
  typed : WellTyped v
  keyed : v.Keyed
  lengths : LengthsFit v

/-- The same for what a slot holds. A value whose type is not known carries its own. -/
def SlotAccepted (known : Option Ty) (slot : Slot) : Prop :=
  ∀ v ∈ slot, Accepted (known.getD v.ty) v

/-- The same for the keys and values of a map. -/
structure PairsAccepted (keyTy valueTy : Option Ty) (pairs : List (Value × Slot)) : Prop where
  keys : ∀ pair ∈ pairs, Accepted (keyTy.getD pair.1.ty) pair.1
  values : ∀ pair ∈ pairs, SlotAccepted valueTy pair.2

/-- A value that was read under the type in front of it can stand under its own. -/
theorem Accepted.own {t : Ty} {v : Value} (accepted : Accepted t v) : Accepted v.ty v :=
  { accepted with suits := Ty.suits_refl v.ty }

theorem Accepted.suits_known {known : Option Ty} {v : Value}
    (accepted : Accepted (known.getD v.ty) v) : ∀ t ∈ known, Ty.Suits t v.ty := by
  rintro t ⟨⟩
  exact accepted.suits

theorem accepted_scalar {s : Scalar} {v : Value} (kind : v.kind = .scalar s) (lengths : LengthsFit v) :
    Accepted (.scalar s) v :=
  ⟨suits_of_hasTy (.scalar kind), .scalar kind, keyed_of_scalar kind, lengths⟩

section Containers

variable {declared own : Option Ty} {items : List Slot}

theorem accepted_list (kept : Keeps declared own) (contents : ∀ slot ∈ items, SlotAccepted own slot)
    (short : items.length < Nat.pow 2 32) : Accepted (.list declared) (.list own items) where
  suits := kept
  typed := .list (fun t known slot member v held => (contents slot member v held).suits_known t known)
    fun slot member v held => (contents slot member v held).typed
  keyed := .list fun slot member v held => (contents slot member v held).keyed
  lengths := .list short fun slot member v held => (contents slot member v held).lengths

theorem accepted_iterator (kept : Keeps declared own)
    (contents : ∀ slot ∈ items, SlotAccepted own slot) (short : items.length < Nat.pow 2 32) :
    Accepted (.iterator declared) (.iterator own items) where
  suits := kept
  typed := .iterator (fun t known slot member v held => (contents slot member v held).suits_known t known)
    fun slot member v held => (contents slot member v held).typed
  keyed := .iterator fun slot member v held => (contents slot member v held).keyed
  lengths := .iterator short fun slot member v held => (contents slot member v held).lengths

variable {declaredKey declaredValue ownKey ownValue : Option Ty}

/-- Insertion spells keys and slots as they were read. -/
private theorem PairsAccepted.insertAll {pairs : List (Value × Slot)}
    (accepted : PairsAccepted ownKey ownValue pairs) :
    PairsAccepted ownKey ownValue (insertAll [] pairs) := by
  constructor
  · intro pair member
    obtain ⟨⟨other, inside, equal⟩, -⟩ := mem_insertAll member
    rw [← equal]
    exact accepted.keys other inside
  · intro pair member
    obtain ⟨-, other, inside, equal⟩ := mem_insertAll member
    rw [← equal]
    exact accepted.values other inside

private theorem length_insert_le (pairs : List (Value × Slot)) (key : Value) (slot : Slot) :
    (insert pairs key slot).length ≤ pairs.length + 1 := by
  induction pairs with
  | nil => exact Nat.le_refl 1
  | cons head rest ih =>
    unfold Value.insert
    split
    · exact Nat.le_succ _
    · exact Nat.succ_le_succ ih

theorem length_insertAll_le (pairs more : List (Value × Slot)) :
    (insertAll pairs more).length ≤ pairs.length + more.length := by
  induction more generalizing pairs with
  | nil => exact Nat.le_refl _
  | cons pair rest ih =>
    have first := length_insert_le pairs pair.1 pair.2
    have others := ih (Value.insert pairs pair.1 pair.2)
    rw [List.length_cons]
    exact Nat.le_trans others (by omega)

theorem accepted_map {pairs : List (Value × Slot)} (keptKey : Keeps declaredKey ownKey)
    (keptValue : Keeps declaredValue ownValue) (contents : PairsAccepted ownKey ownValue pairs)
    (short : pairs.length < Nat.pow 2 32) :
    Accepted (.map declaredKey declaredValue) (.map ownKey ownValue (insertAll [] pairs)) := by
  have inserted := contents.insertAll
  have apart : PairsKeyed (Value.insertAll [] pairs) := PairsKeyed.nil.insertAll fun pair member =>
    ⟨(contents.keys pair member).keyed, fun v held => (contents.values pair member v held).keyed⟩
  refine ⟨⟨keptKey, keptValue⟩, .map ?_ ?_ ?_ ?_, keyed_map_iff.mpr apart, .map ?_ ?_ ?_⟩
  · exact fun t known pair member => (inserted.keys pair member).suits_known t known
  · exact fun t known pair member v held => (inserted.values pair member v held).suits_known t known
  · exact fun pair member => (inserted.keys pair member).typed
  · exact fun pair member v held => (inserted.values pair member v held).typed
  · have bound := length_insertAll_le [] pairs
    rw [List.length_nil, Nat.zero_add] at bound
    exact Nat.lt_of_le_of_lt bound short
  · exact fun pair member => (inserted.keys pair member).lengths
  · exact fun pair member v held => (inserted.values pair member v held).lengths

private theorem keeps_or {wanted own : Option Ty} (kept : Keeps wanted own) (other : Option Ty) :
    Keeps wanted (own.or other) := by
  intro t known
  rw [kept t known]
  rfl

theorem accepted_entry {key value : Slot} (keptKey : Keeps declaredKey ownKey)
    (keptValue : Keeps declaredValue ownValue) (keyHalf : SlotAccepted ownKey key)
    (valueHalf : SlotAccepted ownValue value) :
    Accepted (.entry declaredKey declaredValue) (.entry ownKey ownValue key value) where
  suits := ⟨keeps_or keptKey _, keeps_or keptValue _⟩
  typed := .entry (fun t known v held => (keyHalf v held).suits_known t known)
    (fun t known v held => (valueHalf v held).suits_known t known)
    (fun v held => (keyHalf v held).typed) fun v held => (valueHalf v held).typed
  keyed := .entry (fun v held => (keyHalf v held).keyed) fun v held => (valueHalf v held).keyed
  lengths := .entry (fun v held => (keyHalf v held).lengths) fun v held => (valueHalf v held).lengths

end Containers

/-! ### Readers -/

/-- Readers with this fuel give what is accepted. -/
private structure Accepts (fuel : Nat) : Prop where
  payload (t : Ty) : Gives (readPayload fuel t) (Accepted t)
  value (known : Option Ty) : Gives (readValue fuel known) fun v => Accepted (known.getD v.ty) v
  slot (known : Option Ty) : Gives (readSlot fuel known) (SlotAccepted known)
  items (known : Option Ty) (count : Nat) : Gives (readItems fuel known count) fun items =>
    items.length = count ∧ ∀ slot ∈ items, SlotAccepted known slot
  pairs (knownKey knownValue : Option Ty) (count : Nat) :
    Gives (readPairs fuel knownKey knownValue count) fun pairs =>
      pairs.length = count ∧ PairsAccepted knownKey knownValue pairs

namespace Accepts

variable {fuel : Nat} (below : Accepts fuel)
include below

private theorem succ_payload (t : Ty) : Gives (readPayload (fuel + 1) t) (Accepted t) := by
  cases t with
  | scalar s => exact fun input v input' run =>
      have ⟨kind, lengths⟩ := gives_readScalar s input v input' run
      accepted_scalar kind lengths
  | list declared =>
    refine (gives_readInlineTy fuel declared).bind fun own kept => ?_
    refine (gives_readNat 4).bind fun count short => (below.items own count).bind ?_
    rintro items ⟨rfl, contents⟩
    exact .pure (accepted_list kept contents short)
  | iterator declared =>
    refine (gives_readInlineTy fuel declared).bind fun own kept => ?_
    refine (gives_readNat 4).bind fun count short => (below.items own count).bind ?_
    rintro items ⟨rfl, contents⟩
    exact .pure (accepted_iterator kept contents short)
  | map declaredKey declaredValue =>
    refine (gives_readInlineTy fuel declaredKey).bind fun ownKey keptKey => ?_
    refine (gives_readInlineTy fuel declaredValue).bind fun ownValue keptValue => ?_
    refine (gives_readNat 4).bind fun count short => (below.pairs ownKey ownValue count).bind ?_
    rintro pairs ⟨rfl, contents⟩
    exact .pure (accepted_map keptKey keptValue contents short)
  | entry declaredKey declaredValue =>
    refine (gives_readInlineTy fuel declaredKey).bind fun ownKey keptKey => ?_
    refine (gives_readInlineTy fuel declaredValue).bind fun ownValue keptValue => ?_
    refine (below.slot ownKey).bind fun key keyHalf => (below.slot ownValue).bind fun value valueHalf => ?_
    exact .pure (accepted_entry keptKey keptValue keyHalf valueHalf)

private theorem succ_value (known : Option Ty) :
    Gives (readValue (fuel + 1) known) fun v => Accepted (known.getD v.ty) v := by
  cases known with
  | some t => exact below.payload t
  | none => exact (Gives.any _).bind fun t _ input v input' run => (below.payload t input v input' run).own

private theorem succ_slot (known : Option Ty) : Gives (readSlot (fuel + 1) known) (SlotAccepted known) := by
  refine (Gives.any position).bind fun offset _ => (Gives.any readByte).bind fun marker _ => ?_
  split
  · exact .pure nofun
  split
  · refine (below.value known).bind fun v accepted => .pure ?_
    rintro w ⟨⟩
    exact accepted
  · exact .throw _

private theorem succ_items (known : Option Ty) (count : Nat) :
    Gives (readItems (fuel + 1) known count) fun items =>
      items.length = count ∧ ∀ slot ∈ items, SlotAccepted known slot := by
  cases count with
  | zero => exact .pure ⟨rfl, nofun⟩
  | succ count =>
    refine (below.slot known).bind fun item first => (below.items known count).bind ?_
    rintro rest ⟨length, others⟩
    exact .pure ⟨congrArg (· + 1) length, List.forall_mem_cons.mpr ⟨first, others⟩⟩

private theorem succ_pairs (knownKey knownValue : Option Ty) (count : Nat) :
    Gives (readPairs (fuel + 1) knownKey knownValue count) fun pairs =>
      pairs.length = count ∧ PairsAccepted knownKey knownValue pairs := by
  cases count with
  | zero => exact .pure ⟨rfl, nofun, nofun⟩
  | succ count =>
    refine (below.value knownKey).bind fun key first => (below.slot knownValue).bind fun value second => ?_
    refine (below.pairs knownKey knownValue count).bind ?_
    rintro rest ⟨length, others⟩
    exact .pure ⟨congrArg (· + 1) length, List.forall_mem_cons.mpr ⟨first, others.keys⟩,
      List.forall_mem_cons.mpr ⟨second, others.values⟩⟩

end Accepts

private theorem accepts (fuel : Nat) : Accepts fuel := by
  induction fuel with
  | zero =>
    refine ⟨fun t => .outOfBytes, fun known => .outOfBytes, fun known => .outOfBytes,
      fun known count => ?_, fun knownKey knownValue count => ?_⟩
    · cases count with
      | zero => exact .pure ⟨rfl, nofun⟩
      | succ count => exact .outOfBytes
    · cases count with
      | zero => exact .pure ⟨rfl, nofun, nofun⟩
      | succ count => exact .outOfBytes
  | succ fuel below =>
    exact ⟨below.succ_payload, below.succ_value, below.succ_slot, below.succ_items, below.succ_pairs⟩

/-- A decoded value is accepted under the decoded type. -/
theorem accepted_of_decode {bytes : List UInt8} {t : TypedValue} (read : decode bytes = .ok t) :
    SlotAccepted (some t.ty) t.slot := by
  unfold decode at read
  obtain ⟨⟨⟨ty, slot⟩, input⟩, run, ended⟩ := Outcome.bind_eq_ok.mp read
  have both : Gives (do
      let ty ← readTy (3 * bytes.length + 3)
      let slot ← readSlot (3 * bytes.length + 3) (some ty)
      return (ty, slot) : Reader (Ty × Slot)) fun (ty, slot) => SlotAccepted (some ty) slot :=
    (Gives.any _).bind fun ty _ => ((accepts _).slot (some ty)).bind fun slot accepted => .pure accepted
  dsimp only at ended
  split at ended
  · cases ended
    exact both _ _ _ run
  · cases ended

/-! ### Writing what a reader sees -/

@[simp] theorem or_or_own (declared own : Option Ty) : declared.or (declared.or own) = declared.or own := by
  cases declared <;> rfl

@[simp] theorem inlineTy_or (declared own : Option Ty) :
    inlineTy declared (declared.or own) = inlineTy declared own := by
  cases declared <;> rfl

/-- A reader that finds a value's own type in front of it gives a value of that type. -/
theorem ty_stamped_own (v : Value) : (stamped v.ty v).ty = v.ty := by
  cases v with
  | integer | float | double | string | entity | position => rfl
  | list own | iterator own => cases own <;> rfl
  | map ownKey ownValue => cases ownKey <;> cases ownValue <;> rfl
  | entry ownKey ownValue key value =>
    cases ownKey <;> cases ownValue <;> cases key <;> cases value <;> rfl

private theorem encodeSlot_stamped {slot : Slot} (known : Option Ty)
    (held : ∀ v ∈ slot, ∀ t, encodePayload t (stamped t v) = encodePayload t v) :
    encodeSlot known (stampedSlot known slot) = encodeSlot known slot := by
  cases slot with
  | none => rfl
  | some v =>
    cases known with
    | some t => simp only [stampedSlot, encodeSlot, Option.getD_some, held v rfl]
    | none => simp only [stampedSlot, encodeSlot, Option.getD_none, ty_stamped_own, held v rfl]

private theorem encodeItems_stamped {items : List Slot} (known : Option Ty)
    (held : ∀ slot ∈ items, ∀ v ∈ slot, ∀ t, encodePayload t (stamped t v) = encodePayload t v) :
    (stampedItems known items).length = items.length ∧
      encodeItems known (stampedItems known items) = encodeItems known items := by
  induction items with
  | nil => exact ⟨rfl, rfl⟩
  | cons item rest ih =>
    have head := encodeSlot_stamped known (held item List.mem_cons_self)
    obtain ⟨length, tail⟩ := ih fun slot member => held slot (List.mem_cons_of_mem _ member)
    simp only [stampedItems, encodeItems, List.length_cons, head, length, tail, and_self]

private theorem encodePairs_stamped {pairs : List (Value × Slot)} (knownKey knownValue : Option Ty)
    (keys : ∀ pair ∈ pairs, ∀ t, encodePayload t (stamped t pair.1) = encodePayload t pair.1)
    (values : ∀ pair ∈ pairs, ∀ v ∈ pair.2, ∀ t,
      encodePayload t (stamped t v) = encodePayload t v) :
    (stampedPairs knownKey knownValue pairs).length = pairs.length ∧
      encodePairs knownKey knownValue (stampedPairs knownKey knownValue pairs) =
        encodePairs knownKey knownValue pairs := by
  induction pairs with
  | nil => exact ⟨rfl, rfl⟩
  | cons pair rest ih =>
    obtain ⟨key, slot⟩ := pair
    have spelled := keys (key, slot) List.mem_cons_self
    have value := encodeSlot_stamped knownValue (values (key, slot) List.mem_cons_self)
    obtain ⟨length, tail⟩ := ih (fun other member => keys other (List.mem_cons_of_mem _ member))
      fun other member => values other (List.mem_cons_of_mem _ member)
    have first : encodeValue knownKey (stamped (knownKey.getD key.ty) key) =
        encodeValue knownKey key := by
      cases knownKey with
      | some t => exact spelled t
      | none => simp only [encodeValue, Option.getD_none, ty_stamped_own, spelled]
    simp only [stampedPairs, encodePairs_cons, List.length_cons, first, value, length, tail, and_self]

/-- What a reader sees of a value is written as the value was. -/
theorem encodePayload_stamped (v : Value) (t : Ty) :
    encodePayload t (stamped t v) = encodePayload t v := by
  induction v generalizing t with
  | integer | float | double | string | entity | position => rfl
  | list own items ih =>
    cases t with
    | list declared =>
      obtain ⟨length, contents⟩ := encodeItems_stamped (declared.or own) ih
      simp only [stamped, encodePayload, inlineTy_or, or_or_own, length, contents]
    | _ => rfl
  | iterator own items ih =>
    cases t with
    | iterator declared =>
      obtain ⟨length, contents⟩ := encodeItems_stamped (declared.or own) ih
      simp only [stamped, encodePayload, inlineTy_or, or_or_own, length, contents]
    | _ => rfl
  | map ownKey ownValue pairs keys values =>
    cases t with
    | map declaredKey declaredValue =>
      obtain ⟨length, contents⟩ :=
        encodePairs_stamped (declaredKey.or ownKey) (declaredValue.or ownValue) keys values
      simp only [stamped, encodePayload, inlineTy_or, or_or_own, length, contents]
    | _ => rfl
  | entry ownKey ownValue key value keyHeld valueHeld =>
    cases t with
    | entry declaredKey declaredValue =>
      have first := encodeSlot_stamped (declaredKey.or ownKey) keyHeld
      have second := encodeSlot_stamped (declaredValue.or ownValue) valueHeld
      simp only [stamped, encodePayload, inlineTy_or, or_or_own, first, second]
    | _ => rfl

/-- What is decoded can be encoded, and decoding that gives the same type and the same value, whose
encoding has settled. -/
theorem encode_of_decode {bytes : List UInt8} {t : TypedValue} (read : decode bytes = .ok t) :
    ∃ again, encode t = .ok again ∧ ∃ u, decode again = .ok u ∧ u.ty = t.ty ∧
      bareSlot u.slot = bareSlot t.slot ∧ sameSlot u.slot t.slot = true ∧ encode u = .ok again := by
  have accepted := accepted_of_decode read
  have keyed : SlotKeyed t.slot := fun v held => (accepted v held).keyed
  obtain ⟨again, written⟩ := exists_encode_of_suits (fun v held => (accepted v held).suits)
    (fun v held => (accepted v held).typed) fun v held => (accepted v held).lengths
  have unmoved := bareSlot_stamped (some t.ty) t.slot
  refine ⟨again, written, _, decode_of_encode keyed written, rfl, unmoved,
    sameSlot_of_bareSlot_eq keyed unmoved, ?_⟩
  rw [← written, encode, encode, encodeSlot_stamped (some t.ty) fun v _ => encodePayload_stamped v]

/-- Bytes that no writer writes: a map with the same key twice, and an entry that leaves its types open
although its key is there. The second pair remains, and the entry is written under the type it has. -/
theorem encode_of_decode_repeated :
    let bytes : List UInt8 := [32, 255, 255, 1, 255, 255, 0, 0, 0, 2, 0, 7, 0, 0, 7, 1, 33, 255, 255,
      255, 255, 1, 1, 0, 9, 0]
    let t : TypedValue := ⟨.map none none, some (.map none none
      [(.integer .byte 7#8, some (.entry none none (some (.integer .short 9#16)) none))])⟩
    let again : List UInt8 := [32, 255, 255, 1, 255, 255, 0, 0, 0, 1, 0, 7, 1, 33, 1, 255, 255, 1, 0,
      9, 0]
    decode bytes = .ok t ∧ encode t = .ok again ∧ ∃ u, decode again = .ok u ∧ u.ty = t.ty ∧
      bareSlot u.slot = bareSlot t.slot ∧ sameSlot u.slot t.slot = true ∧ encode u = .ok again := by
  intro bytes t again
  have read : decode bytes = .ok t := rfl
  have written : encode t = .ok again := rfl
  obtain ⟨again', settled, rest⟩ := encode_of_decode read
  cases written.symm.trans settled
  exact ⟨read, written, rest⟩

end Immediate.Codec
