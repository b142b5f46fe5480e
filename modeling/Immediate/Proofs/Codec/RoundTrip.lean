import Immediate.Proofs.Codec.Reading
import Immediate.Proofs.Declarations
import Immediate.Proofs.Outcomes
/-! What was written is read back. The reader recovers the type to the letter and of the value
everything but its undeclared child types: a container is read back with those of the type it was
written under, and with its own where that type leaves a child unset. -/
namespace Immediate

namespace Value

mutual

/-- The value as a reader of its bytes sees it, when it was written under a type. -/
def stamped (ty : Ty) : Value → Value
  | .list own items =>
    match ty with
    | .list declared => .list (declared.or own) (stampedItems (declared.or own) items)
    | _ => .list own items
  | .iterator own items =>
    match ty with
    | .iterator declared => .iterator (declared.or own) (stampedItems (declared.or own) items)
    | _ => .iterator own items
  | .map ownKey ownValue pairs =>
    match ty with
    | .map declaredKey declaredValue =>
      .map (declaredKey.or ownKey) (declaredValue.or ownValue)
        (stampedPairs (declaredKey.or ownKey) (declaredValue.or ownValue) pairs)
    | _ => .map ownKey ownValue pairs
  | .entry ownKey ownValue key value =>
    match ty with
    | .entry declaredKey declaredValue =>
      .entry (declaredKey.or ownKey) (declaredValue.or ownValue)
        (stampedSlot (declaredKey.or ownKey) key) (stampedSlot (declaredValue.or ownValue) value)
    | _ => .entry ownKey ownValue key value
  | .integer width n => .integer width n
  | .float x => .float x
  | .double x => .double x
  | .string s => .string s
  | .entity e => .entity e
  | .position p => .position p

/-- The same for a slot. A value whose type is not known was written under its own. -/
def stampedSlot (known : Option Ty) : Option Value → Option Value
  | none => none
  | some v => some (stamped (known.getD v.ty) v)

/-- The same for the slots of a sequence. -/
def stampedItems (known : Option Ty) : List (Option Value) → List (Option Value)
  | [] => []
  | item :: rest => stampedSlot known item :: stampedItems known rest

/-- The same for the pairs of a map. -/
def stampedPairs (knownKey knownValue : Option Ty) :
    List (Value × Option Value) → List (Value × Option Value)
  | [] => []
  | (key, value) :: rest =>
    (stamped (knownKey.getD key.ty) key, stampedSlot knownValue value) ::
      stampedPairs knownKey knownValue rest

end

private theorem bareSlot_stampedSlot (known : Option Ty) (slot : Slot)
    (held : ∀ v ∈ slot, ∀ ty, (stamped ty v).bare = v.bare) :
    bareSlot (stampedSlot known slot) = bareSlot slot := by
  cases slot with
  | none => rfl
  | some v => simp only [stampedSlot, bareSlot, held v rfl]

private theorem bareItems_stampedItems {items : List Slot}
    (held : ∀ slot ∈ items, ∀ v ∈ slot, ∀ ty, (stamped ty v).bare = v.bare) (known : Option Ty) :
    bareItems (stampedItems known items) = bareItems items := by
  induction items with
  | nil => rfl
  | cons item rest ih =>
    have tail := ih fun slot member => held slot (List.mem_cons_of_mem _ member)
    have head := bareSlot_stampedSlot known item (held item List.mem_cons_self)
    simp only [stampedItems, bareItems, head, tail]

private theorem barePairs_stampedPairs {pairs : List (Value × Slot)}
    (keys : ∀ pair ∈ pairs, ∀ ty, (stamped ty pair.1).bare = pair.1.bare)
    (values : ∀ pair ∈ pairs, ∀ v ∈ pair.2, ∀ ty, (stamped ty v).bare = v.bare)
    (knownKey knownValue : Option Ty) :
    barePairs (stampedPairs knownKey knownValue pairs) = barePairs pairs := by
  induction pairs with
  | nil => rfl
  | cons pair rest ih =>
    obtain ⟨key, slot⟩ := pair
    have tail := ih (fun pair member => keys pair (List.mem_cons_of_mem _ member))
      (fun pair member => values pair (List.mem_cons_of_mem _ member))
    have head : ∀ ty, (stamped ty key).bare = key.bare := keys (key, slot) List.mem_cons_self
    have half := bareSlot_stampedSlot knownValue slot (values (key, slot) List.mem_cons_self)
    simp only [stampedPairs, barePairs, head, half, tail]

/-- Reading back changes no contents and no order. -/
theorem bare_stamped (v : Value) (ty : Ty) : (stamped ty v).bare = v.bare := by
  induction v generalizing ty with
  | integer | float | double | string | entity | position => rfl
  | list own items ih =>
    cases ty with
    | list declared => simp only [stamped, bare, bareItems_stampedItems ih]
    | _ => rfl
  | iterator own items ih =>
    cases ty with
    | iterator declared => simp only [stamped, bare, bareItems_stampedItems ih]
    | _ => rfl
  | map ownKey ownValue pairs keys values =>
    cases ty with
    | map declaredKey declaredValue =>
      simp only [stamped, bare, barePairs_stampedPairs keys values]
    | _ => rfl
  | entry ownKey ownValue key value keyHeld valueHeld =>
    cases ty with
    | entry declaredKey declaredValue =>
      simp only [stamped, bare, bareSlot_stampedSlot _ _ keyHeld, bareSlot_stampedSlot _ _ valueHeld]
    | _ => rfl

theorem bareSlot_stamped (known : Option Ty) (slot : Slot) :
    bareSlot (stampedSlot known slot) = bareSlot slot :=
  bareSlot_stampedSlot known slot fun v _ ty => bare_stamped v ty

theorem stampedPairs_eq_map (knownKey knownValue : Option Ty) (pairs : List (Value × Slot)) :
    stampedPairs knownKey knownValue pairs = pairs.map fun pair =>
      (stamped (knownKey.getD pair.1.ty) pair.1, stampedSlot knownValue pair.2) := by
  induction pairs with
  | nil => rfl
  | cons pair rest ih => simp only [stampedPairs, ih, List.map_cons]

/-- A map read back pair by pair has all its pairs. -/
theorem insertAll_stampedPairs {pairs : List (Value × Slot)} (keyed : PairsKeyed pairs)
    (knownKey knownValue : Option Ty) :
    insertAll [] (stampedPairs knownKey knownValue pairs) =
      stampedPairs knownKey knownValue pairs := by
  have unmoved (v w : Value) (s t : Ty) : same (stamped s v) (stamped t w) = same v w := by
    rw [← same_bare, bare_stamped, bare_stamped, same_bare]
  refine insertAll_of_apart (fun _ impossible => nomatch impossible) ?_
  rw [stampedPairs_eq_map, List.pairwise_map]
  refine keyed.apart_comm.imp fun {first second} apart => ?_
  rw [unmoved]
  exact apart

end Value

namespace Codec
open Value

/-! ### What was written, part by part -/

theorem after_eq_ok {front bytes : List UInt8} {rest : Except CodecError (List UInt8)} :
    after front rest = .ok bytes ↔ ∃ tail, rest = .ok tail ∧ front ++ tail = bytes :=
  Outcome.map_eq_ok

theorem both_eq_ok {first second : Except CodecError (List UInt8)} {bytes : List UInt8} :
    both first second = .ok bytes ↔
      ∃ left, first = .ok left ∧ ∃ right, second = .ok right ∧ left ++ right = bytes := by
  unfold both
  rw [Outcome.bind_eq_ok]
  refine exists_congr fun left => and_congr_right fun _ => ?_
  rw [Outcome.bind_eq_ok]
  exact exists_congr fun right => and_congr_right fun _ => Outcome.pure_eq_ok

/-- The bytes of a value, with its type in front if that is not known. -/
def encodeValue (known : Option Ty) (v : Value) : Except CodecError (List UInt8) :=
  match known with
  | some t => encodePayload t v
  | none => after (encodeTy v.ty) (encodePayload v.ty v)

theorem encodeSlot_some (known : Option Ty) (v : Value) :
    encodeSlot known (some v) = after [present] (encodeValue known v) := by
  cases known with
  | some t => rfl
  | none =>
    simp only [encodeSlot, encodeValue, after]
    cases encodePayload v.ty v <;> rfl

theorem encodePairs_cons (knownKey knownValue : Option Ty) (key : Value) (slot : Slot)
    (rest : List (Value × Slot)) :
    encodePairs knownKey knownValue ((key, slot) :: rest) =
      both (both (encodeValue knownKey key) (encodeSlot knownValue slot))
        (encodePairs knownKey knownValue rest) := by
  cases knownKey <;> rfl

/-- A slot takes at least one byte. -/
theorem length_encodeSlot_pos {known : Option Ty} {slot : Slot} {bytes : List UInt8}
    (written : encodeSlot known slot = .ok bytes) : 0 < bytes.length := by
  cases slot with
  | none =>
    cases written
    exact Nat.zero_lt_one
  | some v =>
    rw [encodeSlot_some, after_eq_ok] at written
    obtain ⟨tail, -, rfl⟩ := written
    simp

/-! ### Reading it back -/

theorem reads_topTy (t : Ty) {fuel : Nat} (enough : (encodeTy t).length ≤ fuel) :
    Reads (readTy fuel) (encodeTy t) t := (reads_ty t enough).bind_last (Reads.pure t)

/-- The payload of a value is read back under every type it can be written under. Each byte pays
for the at most three readers that its slot, value and payload go through. -/
def ReadsBack (v : Value) : Prop :=
  ∀ {ty : Ty} {bytes : List UInt8} {fuel : Nat}, encodePayload ty v = .ok bytes →
    3 * bytes.length + 1 ≤ fuel → Reads (readPayload fuel ty) bytes (stamped ty v)

variable {known : Option Ty} {bytes : List UInt8} {fuel : Nat}

theorem reads_value {v : Value} (held : ReadsBack v) (written : encodeValue known v = .ok bytes)
    (enough : 3 * bytes.length + 2 ≤ fuel) :
    Reads (readValue fuel known) bytes (stamped (known.getD v.ty) v) := by
  obtain ⟨fuel, rfl⟩ : ∃ n, fuel = n + 1 := ⟨fuel - 1, by omega⟩
  cases known with
  | some t => exact held written (by omega)
  | none =>
    rw [encodeValue, after_eq_ok] at written
    obtain ⟨tail, written, rfl⟩ := written
    rw [List.length_append] at enough
    have typed : Reads (readTy fuel) (encodeTy v.ty) v.ty := by
      have short : (encodeTy v.ty).length ≤ fuel := by omega
      exact reads_topTy v.ty short
    exact typed.bind (held written (by omega))

theorem reads_slot {slot : Slot} (held : ∀ v ∈ slot, ReadsBack v)
    (written : encodeSlot known slot = .ok bytes) (enough : 3 * bytes.length ≤ fuel) :
    Reads (readSlot fuel known) bytes (stampedSlot known slot) := by
  have nonempty := length_encodeSlot_pos written
  obtain ⟨fuel, rfl⟩ : ∃ n, fuel = n + 1 := ⟨fuel - 1, by omega⟩
  refine Reads.position_bind fun offset => ?_
  cases slot with
  | none =>
    cases written
    exact (reads_readByte absent).bind (Reads.pure none)
  | some v =>
    rw [encodeSlot_some, after_eq_ok] at written
    obtain ⟨tail, written, rfl⟩ := written
    refine (reads_readByte present).bind ?_
    simp only [List.length_append, List.length_singleton] at enough
    exact (reads_value (held v rfl) written (by omega)).bind_pure

theorem reads_items {items : List Slot} (held : ∀ slot ∈ items, ∀ v ∈ slot, ReadsBack v)
    (written : encodeItems known items = .ok bytes) (enough : 3 * bytes.length + 1 ≤ fuel) :
    Reads (readItems fuel known items.length) bytes (stampedItems known items) := by
  induction items generalizing bytes fuel with
  | nil =>
    cases written
    cases fuel <;> exact Reads.pure []
  | cons item rest ih =>
    obtain ⟨fuel, rfl⟩ : ∃ n, fuel = n + 1 := ⟨fuel - 1, by omega⟩
    rw [encodeItems, both_eq_ok] at written
    obtain ⟨left, head, right, tail, rfl⟩ := written
    have nonempty := length_encodeSlot_pos head
    rw [List.length_append] at enough
    have first : Reads (readSlot fuel known) left (stampedSlot known item) :=
      reads_slot (held item List.mem_cons_self) head (by omega)
    have others : Reads (readItems fuel known rest.length) right (stampedItems known rest) :=
      ih (fun slot member => held slot (List.mem_cons_of_mem _ member)) tail (by omega)
    exact first.bind others.bind_pure

theorem reads_pairs {knownKey knownValue : Option Ty} {pairs : List (Value × Slot)}
    (keys : ∀ pair ∈ pairs, ReadsBack pair.1)
    (values : ∀ pair ∈ pairs, ∀ v ∈ pair.2, ReadsBack v)
    (written : encodePairs knownKey knownValue pairs = .ok bytes)
    (enough : 3 * bytes.length + 1 ≤ fuel) :
    Reads (readPairs fuel knownKey knownValue pairs.length) bytes
      (stampedPairs knownKey knownValue pairs) := by
  induction pairs generalizing bytes fuel with
  | nil =>
    cases written
    cases fuel <;> exact Reads.pure []
  | cons pair rest ih =>
    obtain ⟨key, slot⟩ := pair
    obtain ⟨fuel, rfl⟩ : ∃ n, fuel = n + 1 := ⟨fuel - 1, by omega⟩
    rw [encodePairs_cons, both_eq_ok] at written
    obtain ⟨left, head, right, tail, rfl⟩ := written
    rw [both_eq_ok] at head
    obtain ⟨keyBytes, keyWritten, slotBytes, slotWritten, rfl⟩ := head
    have nonempty := length_encodeSlot_pos slotWritten
    simp only [List.length_append] at enough
    have first : Reads (readValue fuel knownKey) keyBytes _ :=
      reads_value (keys (key, slot) List.mem_cons_self) keyWritten (by omega)
    have second : Reads (readSlot fuel knownValue) slotBytes _ :=
      reads_slot (values (key, slot) List.mem_cons_self) slotWritten (by omega)
    have others : Reads (readPairs fuel knownKey knownValue rest.length) right _ :=
      ih (fun pair member => keys pair (List.mem_cons_of_mem _ member))
        (fun pair member => values pair (List.mem_cons_of_mem _ member)) tail (by omega)
    rw [List.append_assoc]
    exact first.bind (second.bind others.bind_pure)

theorem reads_inlineTy (declared own : Option Ty) (enough : (inlineTy declared own).length ≤ fuel) :
    Reads (readInlineTy fuel declared) (inlineTy declared own) (declared.or own) := by
  cases declared with
  | some t => exact Reads.pure (some t)
  | none => exact reads_childTy own enough

private theorem reads_fixed {width n : Nat} {make : Nat → Value} {v : Value}
    (fits : n < Nat.pow 256 width) (made : make n = v) :
    Reads (readNat width >>= fun m => return make m) (bigEndian width n) v :=
  (reads_readNat fits).bind_last (made ▸ Reads.pure _)

private theorem toList_loop (bytes : ByteArray) (i : Nat) (front : List UInt8) :
    ByteArray.toList.loop bytes i front = front.reverse ++ bytes.data.toList.drop i := by
  fun_induction ByteArray.toList.loop bytes i front with
  | case1 i front inside ih =>
    have here : bytes.data.toList.drop i = bytes.get! i :: bytes.data.toList.drop (i + 1) := by
      have bound : i < bytes.data.toList.length := inside
      have got : bytes.get! i = bytes.data.toList[i] := by
        change bytes.data[i]! = _
        rw [getElem!_pos bytes.data i inside]
        exact (Array.getElem_toList inside).symm
      rw [got]
      exact List.drop_eq_getElem_cons bound
    rw [ih, here, List.reverse_cons, List.append_assoc, List.singleton_append]
  | case2 i front outside =>
    have bound : bytes.data.toList.length ≤ i := Nat.le_of_not_lt outside
    rw [List.drop_eq_nil_of_le bound, List.append_nil]

private theorem utf8_toList (s : String) : s.toUTF8.toList = s.toUTF8.data.toList := by
  rw [ByteArray.toList, toList_loop, List.reverse_nil, List.nil_append, List.drop_zero]

theorem length_utf8 (s : String) : s.toUTF8.toList.length = s.utf8ByteSize := by
  rw [utf8_toList]
  rfl

theorem fromUTF8?_utf8 (s : String) : String.fromUTF8? ⟨s.toUTF8.toList.toArray⟩ = some s := by
  rw [utf8_toList]
  exact dif_pos s.isValidUTF8

private theorem reads_string (s : String) (written : encodeLength s.utf8ByteSize = .ok bytes) :
    Reads (readScalar .string) (bytes ++ s.toUTF8.toList) (.string s) := by
  refine (reads_length written).bind (Reads.position_bind fun offset => ?_)
  rw [← length_utf8 s]
  refine (reads_take s.toUTF8.toList).bind_last ?_
  rw [fromUTF8?_utf8]
  exact Reads.pure _

private theorem reads_position (p : Position) :
    Reads (readScalar .position) (bigEndian 8 p.x.bits.toNat ++ bigEndian 8 p.y.bits.toNat ++
      bigEndian 8 p.z.bits.toNat) (.position p) := by
  have coordinate (x : Binary64) : Reads (readNat 8) (bigEndian 8 x.bits.toNat) x.bits.toNat :=
    reads_readNat x.bits.toNat_lt
  have unchanged (x : Binary64) : (⟨x.bits.toNat.toUInt64⟩ : Binary64) = x := by simp
  rw [List.append_assoc]
  refine (coordinate p.x).bind ((coordinate p.y).bind ((coordinate p.z).bind_last ?_))
  rw [unchanged, unchanged, unchanged]
  exact Reads.pure _

private theorem ok_of_ite {p : Prop} [Decidable p] {x : Except CodecError (List UInt8)}
    {e : CodecError} (held : (if p then x else .error e) = .ok bytes) : p ∧ x = .ok bytes := by
  split at held
  · rename_i fits
    exact ⟨fits, held⟩
  · cases held

theorem length_encodeLength {length : Nat} (written : encodeLength length = .ok bytes) :
    bytes.length = 4 := by
  unfold encodeLength at written
  obtain ⟨-, equal⟩ := ok_of_ite written
  cases equal
  exact length_bigEndian 4 _

/-- The value of a scalar kind is written under that kind alone and is read back from its
payload. -/
theorem reads_scalar {ty : Ty} {v : Value} {s : Scalar} (scalar : v.kind = .scalar s)
    (written : encodePayload ty v = .ok bytes) : ty = .scalar s ∧ Reads (readScalar s) bytes v := by
  cases v with
  | integer width n =>
    cases scalar
    rw [encodePayload] at written
    obtain ⟨rfl, payload⟩ := ok_of_ite written
    cases payload
    have fits : n.toNat < Nat.pow 256 (width.bits / 8) := by
      have bound := n.isLt
      cases width <;> exact bound
    exact ⟨rfl, reads_fixed fits (by simp)⟩
  | float x =>
    cases scalar
    rw [encodePayload] at written
    obtain ⟨rfl, payload⟩ := ok_of_ite written
    cases payload
    exact ⟨rfl, reads_fixed x.bits.toNat_lt (by simp)⟩
  | double x =>
    cases scalar
    rw [encodePayload] at written
    obtain ⟨rfl, payload⟩ := ok_of_ite written
    cases payload
    exact ⟨rfl, reads_fixed x.bits.toNat_lt (by simp)⟩
  | string text =>
    cases scalar
    rw [encodePayload] at written
    obtain ⟨rfl, payload⟩ := ok_of_ite written
    obtain ⟨left, length, right, contents, rfl⟩ := both_eq_ok.mp payload
    cases contents
    exact ⟨rfl, reads_string text length⟩
  | entity e =>
    cases scalar
    rw [encodePayload] at written
    obtain ⟨rfl, payload⟩ := ok_of_ite written
    cases payload
    exact ⟨rfl, reads_fixed e.bits.isLt (by simp)⟩
  | position p =>
    cases scalar
    rw [encodePayload] at written
    obtain ⟨rfl, payload⟩ := ok_of_ite written
    cases payload
    exact ⟨rfl, reads_position p⟩
  | list | iterator | map | entry => cases scalar

theorem stamped_scalar {v : Value} {s : Scalar} (scalar : v.kind = .scalar s) (ty : Ty) :
    stamped ty v = v := by
  cases v with
  | list | iterator | map | entry => cases scalar
  | _ => rfl

private theorem readsBack_of_scalar {v : Value} {s : Scalar} (scalar : v.kind = .scalar s) :
    ReadsBack v := by
  intro ty bytes fuel written enough
  obtain ⟨fuel, rfl⟩ : ∃ n, fuel = n + 1 := ⟨fuel - 1, by omega⟩
  obtain ⟨rfl, payload⟩ := reads_scalar scalar written
  rw [stamped_scalar scalar]
  exact payload

/-- The contents of a sequence behind its element type and its length. -/
private theorem reads_sequence {declared own : Option Ty} {items : List Slot}
    {make : Option Ty → List Slot → Value} (held : ∀ slot ∈ items, ∀ v ∈ slot, ReadsBack v)
    (written : after (inlineTy declared own) (both (encodeLength items.length)
      (encodeItems (declared.or own) items)) = .ok bytes)
    (enough : 3 * bytes.length ≤ fuel) :
    Reads (readInlineTy fuel declared >>= fun element => readNat 4 >>= fun length =>
      readItems fuel element length >>= fun items => return make element items) bytes
      (make (declared.or own) (stampedItems (declared.or own) items)) := by
  obtain ⟨tail, payload, rfl⟩ := after_eq_ok.mp written
  obtain ⟨left, length, right, contents, rfl⟩ := both_eq_ok.mp payload
  have four := length_encodeLength length
  simp only [List.length_append, four] at enough
  refine (reads_inlineTy declared own (by omega)).bind ((reads_length length).bind ?_)
  exact (reads_items held contents (by omega)).bind_pure

/-- Every value whose maps keep their keys apart is read back. -/
theorem readsBack {v : Value} (keyed : v.Keyed) : ReadsBack v := by
  induction keyed with
  | integer | float | double | string | entity | position => exact readsBack_of_scalar rfl
  | list contents ih =>
    intro ty bytes fuel written enough
    obtain ⟨fuel, rfl⟩ : ∃ n, fuel = n + 1 := ⟨fuel - 1, by omega⟩
    cases ty with
    | list declared => exact reads_sequence ih written (by omega)
    | _ => cases written
  | iterator contents ih =>
    intro ty bytes fuel written enough
    obtain ⟨fuel, rfl⟩ : ∃ n, fuel = n + 1 := ⟨fuel - 1, by omega⟩
    cases ty with
    | iterator declared => exact reads_sequence ih written (by omega)
    | _ => cases written
  | @map ownKey ownValue pairs apart keys values keyHeld valueHeld =>
    intro ty bytes fuel written enough
    obtain ⟨fuel, rfl⟩ : ∃ n, fuel = n + 1 := ⟨fuel - 1, by omega⟩
    cases ty with
    | map declaredKey declaredValue =>
      obtain ⟨tail, payload, rfl⟩ := after_eq_ok.mp written
      obtain ⟨left, length, right, contents, rfl⟩ := both_eq_ok.mp payload
      have four := length_encodeLength length
      simp only [List.length_append, four] at enough
      have read : Reads (readPairs fuel _ _ pairs.length) right _ :=
        reads_pairs keyHeld valueHeld contents (by omega)
      rw [List.append_assoc]
      refine (reads_inlineTy declaredKey ownKey (by omega)).bind
        ((reads_inlineTy declaredValue ownValue (by omega)).bind ((reads_length length).bind
          (read.bind_last ?_)))
      rw [insertAll_stampedPairs ⟨apart, keys, values⟩]
      exact Reads.pure _
    | _ => cases written
  | @entry ownKey ownValue key value keyHalf valueHalf keyHeld valueHeld =>
    intro ty bytes fuel written enough
    obtain ⟨fuel, rfl⟩ : ∃ n, fuel = n + 1 := ⟨fuel - 1, by omega⟩
    cases ty with
    | entry declaredKey declaredValue =>
      obtain ⟨tail, payload, rfl⟩ := after_eq_ok.mp written
      obtain ⟨left, first, right, second, rfl⟩ := both_eq_ok.mp payload
      simp only [List.length_append] at enough
      rw [List.append_assoc]
      exact (reads_inlineTy declaredKey ownKey (by omega)).bind
        ((reads_inlineTy declaredValue ownValue (by omega)).bind
          ((reads_slot keyHeld first (by omega)).bind
            (reads_slot valueHeld second (by omega)).bind_pure))
    | _ => cases written

/-- What was written is read back: the type as it was, and a value with the same contents in the
same order, which is the same value. -/
theorem decode_encode {t : TypedValue} {bytes : List UInt8} (keyed : SlotKeyed t.slot)
    (written : encode t = .ok bytes) :
    ∃ u, decode bytes = .ok u ∧ u.ty = t.ty ∧ bareSlot u.slot = bareSlot t.slot ∧
      sameSlot u.slot t.slot = true := by
  refine ⟨⟨t.ty, stampedSlot (some t.ty) t.slot⟩, ?_, rfl, bareSlot_stamped _ _,
    sameSlot_of_bareSlot_eq keyed (bareSlot_stamped _ _)⟩
  obtain ⟨tail, payload, rfl⟩ := after_eq_ok.mp written
  have read : Reads (do
      let ty ← readTy (3 * (encodeTy t.ty ++ tail).length + 3)
      let slot ← readSlot (3 * (encodeTy t.ty ++ tail).length + 3) (some ty)
      return (ty, slot) : Reader (Ty × Slot)) (encodeTy t.ty ++ tail)
      (t.ty, stampedSlot (some t.ty) t.slot) := by
    refine (reads_topTy t.ty ?_).bind
      (reads_slot (fun v held => readsBack (keyed v held)) payload ?_).bind_pure
    all_goals
      simp only [List.length_append]
      omega
  have run := read [] 0
  rw [List.append_nil] at run
  unfold decode
  dsimp only
  rw [run]
  rfl

/-- A map that declares its keys alone, under a type that declares nothing. Its values carry their
own types, and the element type of the list among them stands before its contents. -/
theorem decode_encode_partly_declared :
    let t : TypedValue := ⟨.map none none, some (.map (some .byte) none
      [(.integer .byte 1#8, some (.list none [some (.integer .short 2#16), none])),
        (.integer .byte 2#8, none)])⟩
    ∃ bytes u, encode t = .ok bytes ∧ decode bytes = .ok u ∧ u.ty = t.ty ∧
      bareSlot u.slot = bareSlot t.slot ∧ sameSlot u.slot t.slot = true := by
  intro t
  have keyed : SlotKeyed t.slot := by decide
  have written : encode t = .ok [32, 255, 255, 1, 0, 255, 0, 0, 0, 2, 1, 1, 16, 255, 255, 0, 0, 0,
      2, 1, 1, 0, 2, 0, 2, 0] := rfl
  obtain ⟨u, read, rest⟩ := decode_encode keyed written
  exact ⟨_, u, written, read, rest⟩

end Codec
end Immediate
