import Immediate.Proofs.Codec.RoundTrip
/-! Encodings delimit themselves. A reader goes through the bytes that were written for it one after
another and asks for no more than these, so what follows them is left over, and an input that ends
within them ends too early for it. No cut is taken for the end of a shorter value, nor for any other
fault. -/
namespace Immediate.Codec

open Value

/-- How a reader of some bytes ends on an input. Either the bytes are there: they are taken, what they
give has a property, and what follows them is left. Or the reader asks for a byte behind the end, which
with enough fuel it does only when the input is shorter than the bytes. -/
inductive Ends {α : Type} (reader : Reader α) (bytes : List UInt8) (enough : Prop) (given : α → Prop)
    (input : List UInt8) (offset : Nat) : Prop where
  | taken {a : α} {rest : List UInt8} (held : given a) (follows : bytes ++ rest = input)
    (run : reader.run ⟨input, offset⟩ = .ok (a, ⟨rest, offset + bytes.length⟩))
  | cut {place : Nat} (short : enough → input.length < bytes.length)
    (within : place ≤ offset + input.length)
    (run : reader.run ⟨input, offset⟩ = .error (.unexpectedEnd place))

/-- A reader ends so on every input that agrees with the bytes as far as both go. -/
def Spans {α : Type} (reader : Reader α) (bytes : List UInt8) (enough : Prop)
    (given : α → Prop) : Prop :=
  ∀ input offset, input <+: bytes ∨ bytes <+: input → Ends reader bytes enough given input offset

namespace Spans

variable {α β : Type} {reader : Reader α} {next : α → Reader β} {bytes more : List UInt8}
  {enough : Prop} {given : α → Prop} {result : β → Prop}

theorem pure {a : α} (held : given a) : Spans (Pure.pure a) [] enough given :=
  fun _ _ _ => .taken held rfl rfl

/-- Less may be asked of the fuel only, and less be said of what is given. -/
theorem weaken {enough' : Prop} {given' : α → Prop} (spans : Spans reader bytes enough given)
    (fuel : enough' → enough) (less : ∀ a, given a → given' a) :
    Spans reader bytes enough' given' := by
  intro input offset agree
  cases spans input offset agree with
  | taken held follows run => exact .taken (less _ held) follows run
  | cut short within run => exact .cut (fun held => short (fuel held)) within run

theorem of_enough {enough' : Prop} (spans : Spans reader bytes enough given)
    (fuel : enough' → enough) : Spans reader bytes enough' given :=
  spans.weaken fuel fun _ held => held

theorem bind (first : Spans reader bytes enough given)
    (second : ∀ a, given a → Spans (next a) more enough result) :
    Spans (reader >>= next) (bytes ++ more) enough result := by
  intro input offset agree
  have front : input <+: bytes ∨ bytes <+: input := by
    rcases agree with shorter | ⟨rest, rfl⟩
    · exact List.prefix_or_prefix_of_prefix shorter (List.prefix_append bytes more)
    · exact .inr ⟨more ++ rest, by rw [List.append_assoc]⟩
  cases first input offset front with
  | cut short within run =>
    refine .cut (fun held => ?_) within (by rw [StateT.run_bind, run]; rfl)
    rw [List.length_append]
    exact Nat.lt_add_right _ (short held)
  | @taken a rest held follows run =>
    subst follows
    have behind : rest <+: more ∨ more <+: rest :=
      agree.imp (List.prefix_append_right_inj bytes).mp (List.prefix_append_right_inj bytes).mp
    have chained : (reader >>= next).run ⟨bytes ++ rest, offset⟩ =
        (next a).run ⟨rest, offset + bytes.length⟩ := by rw [StateT.run_bind, run]; rfl
    cases second a held rest (offset + bytes.length) behind with
    | taken held' follows run' =>
      refine .taken held' (by rw [← follows, List.append_assoc]) (chained.trans ?_)
      rw [run', List.length_append, Nat.add_assoc]
    | cut short within run' =>
      refine .cut (fun held => ?_) ?_ (chained.trans run')
      · rw [List.length_append, List.length_append]
        exact Nat.add_lt_add_left (short held) _
      · rw [List.length_append, ← Nat.add_assoc]
        exact within

/-- A last step that reads nothing. -/
theorem bind_last (first : Spans reader bytes enough given)
    (last : ∀ a, given a → Spans (next a) [] enough result) :
    Spans (reader >>= next) bytes enough result := by
  have joined := first.bind last
  rw [List.append_nil] at joined
  exact joined

/-- Asking for the position reads nothing. -/
theorem position_bind {next : Nat → Reader β}
    (second : ∀ offset, Spans (next offset) bytes enough result) :
    Spans (position >>= next) bytes enough result :=
  fun input offset agree => by
    cases second offset input offset agree with
    | taken held follows run => exact .taken held follows run
    | cut short within run => exact .cut short within run

/-- Without fuel a reader behaves as at the end of the input. -/
theorem outOfBytes (starved : ¬enough) (bytes : List UInt8) :
    Spans (Codec.outOfBytes : Reader α) bytes enough given :=
  fun _ offset _ => .cut (fun held => absurd held starved) (Nat.le_add_right offset _) rfl

end Spans

/-! ### Numbers and types -/

theorem spans_take (bytes : List UInt8) (enough : Prop) :
    Spans (take bytes.length) bytes enough (· = bytes) := by
  intro input offset agree
  by_cases short : input.length < bytes.length
  · have missing : (input.take bytes.length).length < bytes.length := by
      rw [List.length_take]
      omega
    exact .cut (fun _ => short) (Nat.le_add_right offset _) ((run_take ..).trans (if_pos missing))
  · have long : bytes.length ≤ input.length := Nat.le_of_not_lt short
    obtain ⟨rest, rfl⟩ : bytes <+: input :=
      agree.elim (fun shorter => (shorter.eq_of_length_le long) ▸ List.prefix_rfl) id
    exact .taken rfl rfl (reads_take bytes rest offset)

theorem spans_readByte (byte : UInt8) (enough : Prop) :
    Spans readByte [byte] enough (· = byte) := by
  intro input offset agree
  cases input with
  | nil => exact .cut (fun _ => Nat.zero_lt_one) (Nat.le_add_right offset _) rfl
  | cons head rest =>
    have same : head = byte := by
      rcases agree with shorter | longer
      · exact (List.cons_prefix_cons.mp shorter).1
      · exact (List.cons_prefix_cons.mp longer).1.symm
    exact .taken same (same ▸ rfl) rfl

theorem spans_readNat {width n : Nat} (fits : n < Nat.pow 256 width) (enough : Prop) :
    Spans (readNat width) (bigEndian width n) enough (· = n) := by
  have taken := spans_take (bigEndian width n) enough
  rw [length_bigEndian] at taken
  rw [readNat, map_eq_pure_bind]
  refine taken.bind_last ?_
  rintro _ rfl
  exact .pure (ofBigEndian_bigEndian fits)

theorem spans_length {length : Nat} {bytes : List UInt8} (written : encodeLength length = .ok bytes)
    (enough : Prop) : Spans (readNat 4) bytes enough (· = length) := by
  unfold encodeLength at written
  split at written
  · rename_i fits
    cases written
    exact spans_readNat fits enough
  · cases written

section Types

variable {fuel : Nat} {bytes : List UInt8} {enough : Prop} {given : Option Ty → Prop}

private theorem spans_kind {kind : Kind}
    (children : Spans (readChildrenOf fuel kind) bytes enough given) :
    Spans (readChildTy (fuel + 1)) (kind.id :: bytes) enough given := by
  unfold readChildTy
  refine .position_bind fun offset => (spans_readByte kind.id enough).bind ?_
  rintro _ rfl
  obtain ⟨known, set⟩ := ofId?_id kind
  rw [if_neg set, known]
  cases kind <;> exact children

private theorem spans_one {make : Option Ty → Ty} {child : Option Ty}
    (first : Spans (readChildTy fuel) bytes enough (· = child)) :
    Spans (readChildTy fuel >>= fun child => return some (make child)) bytes enough
      (· = some (make child)) :=
  first.bind_last fun _ same => .pure (same ▸ rfl)

private theorem spans_two {make : Option Ty → Option Ty → Ty} {key value : Option Ty}
    {more : List UInt8} (first : Spans (readChildTy fuel) bytes enough (· = key))
    (second : Spans (readChildTy fuel) more enough (· = value)) :
    Spans (readChildTy fuel >>= fun key => readChildTy fuel >>= fun value =>
      return some (make key value)) (bytes ++ more) enough (· = some (make key value)) := by
  refine first.bind ?_
  rintro _ rfl
  exact second.bind_last fun _ same => .pure (same ▸ rfl)

end Types

mutual

/-- The reader of types goes through the bytes of a type, whatever its fuel. -/
theorem spans_ty : ∀ (t : Ty) (fuel : Nat),
    Spans (readChildTy fuel) (encodeTy t) ((encodeTy t).length ≤ fuel) (· = some t)
  | .scalar _, 0 | .list _, 0 | .iterator _, 0 | .map .., 0 | .entry .., 0 =>
    .outOfBytes (Nat.not_succ_le_zero _) _
  | .scalar _, _ + 1 => spans_kind (.pure rfl)
  | .list element, fuel + 1 =>
    spans_kind (spans_one ((spans_childTy element fuel).of_enough Nat.le_of_succ_le_succ))
  | .iterator element, fuel + 1 =>
    spans_kind (spans_one ((spans_childTy element fuel).of_enough Nat.le_of_succ_le_succ))
  | .map key value, fuel + 1 => by
    refine spans_kind (spans_two ((spans_childTy key fuel).of_enough fun enough => ?_)
      ((spans_childTy value fuel).of_enough fun enough => ?_))
    all_goals
      simp only [encodeTy, List.length_cons, List.length_append] at enough
      omega
  | .entry key value, fuel + 1 => by
    refine spans_kind (spans_two ((spans_childTy key fuel).of_enough fun enough => ?_)
      ((spans_childTy value fuel).of_enough fun enough => ?_))
    all_goals
      simp only [encodeTy, List.length_cons, List.length_append] at enough
      omega

/-- The same for a child slot, which may be unset. -/
theorem spans_childTy : ∀ (slot : Option Ty) (fuel : Nat),
    Spans (readChildTy fuel) (encodeChildTy slot) ((encodeChildTy slot).length ≤ fuel) (· = slot)
  | none, 0 => .outOfBytes (Nat.not_succ_le_zero _) _
  | none, _ + 1 => by
    refine .position_bind fun offset => (spans_readByte unsetChild _).bind_last ?_
    rintro _ rfl
    exact .pure rfl
  | some t, fuel => spans_ty t fuel

end

theorem spans_topTy (t : Ty) (fuel : Nat) :
    Spans (readTy fuel) (encodeTy t) ((encodeTy t).length ≤ fuel) (· = t) := by
  refine (spans_ty t fuel).bind_last ?_
  rintro _ rfl
  exact .pure rfl

theorem spans_inlineTy (declared own : Option Ty) (fuel : Nat) :
    Spans (readInlineTy fuel declared) (inlineTy declared own)
      ((inlineTy declared own).length ≤ fuel) (· = declared.or own) := by
  cases declared with
  | some t => exact .pure rfl
  | none => exact spans_childTy own fuel

/-! ### Values -/

private theorem spans_fixed {width n : Nat} {make : Nat → Value} (fits : n < Nat.pow 256 width)
    (enough : Prop) : Spans (readNat width >>= fun m => return make m) (bigEndian width n) enough
      fun _ => True :=
  (spans_readNat fits enough).bind_last fun _ _ => .pure trivial

private theorem spans_string {s : String} {bytes : List UInt8}
    (written : encodeLength s.utf8ByteSize = .ok bytes) (enough : Prop) :
    Spans (readScalar .string) (bytes ++ s.toUTF8.toList) enough fun _ => True := by
  refine (spans_length written enough).bind ?_
  rintro _ rfl
  refine .position_bind fun offset => ?_
  rw [← length_utf8 s]
  refine (spans_take s.toUTF8.toList enough).bind_last ?_
  rintro _ rfl
  rw [fromUTF8?_utf8]
  exact .pure trivial

private theorem spans_position (p : Position) (enough : Prop) :
    Spans (readScalar .position) (bigEndian 8 p.x.bits.toNat ++ bigEndian 8 p.y.bits.toNat ++
      bigEndian 8 p.z.bits.toNat) enough fun _ => True := by
  have coordinate (x : Binary64) : Spans (readNat 8) (bigEndian 8 x.bits.toNat) enough fun _ => True :=
    (spans_readNat x.bits.toNat_lt enough).weaken id fun _ _ => trivial
  rw [List.append_assoc]
  exact (coordinate p.x).bind fun _ _ => (coordinate p.y).bind fun _ _ =>
    (coordinate p.z).bind_last fun _ _ => .pure trivial

/-- The reader of a scalar kind goes through the payload of a value of that kind. -/
theorem spans_scalar {v : Value} {s : Scalar} {bytes : List UInt8} (scalar : v.kind = .scalar s)
    (written : encodePayload (.scalar s) v = .ok bytes) (enough : Prop) :
    Spans (readScalar s) bytes enough fun _ => True := by
  cases v with
  | integer width n =>
    cases scalar
    rw [encodePayload, if_pos rfl] at written
    cases written
    have fits : n.toNat < Nat.pow 256 (width.bits / 8) := by
      have bound := n.isLt
      cases width <;> exact bound
    exact spans_fixed fits enough
  | float x =>
    cases scalar
    rw [encodePayload, if_pos rfl] at written
    cases written
    exact spans_fixed x.bits.toNat_lt enough
  | double x =>
    cases scalar
    rw [encodePayload, if_pos rfl] at written
    cases written
    exact spans_fixed x.bits.toNat_lt enough
  | string text =>
    cases scalar
    rw [encodePayload, if_pos rfl] at written
    obtain ⟨left, length, right, contents, rfl⟩ := both_eq_ok.mp written
    cases contents
    exact spans_string length enough
  | entity e =>
    cases scalar
    rw [encodePayload, if_pos rfl] at written
    cases written
    exact spans_fixed e.bits.isLt enough
  | position p =>
    cases scalar
    rw [encodePayload, if_pos rfl] at written
    cases written
    exact spans_position p enough
  | list | iterator | map | entry => cases scalar

/-- The payload of a value is gone through under every type it can be written under. The fuel that is
enough is that of reading it back. -/
def Delimited (v : Value) : Prop :=
  ∀ {ty : Ty} {bytes : List UInt8} (fuel : Nat), encodePayload ty v = .ok bytes →
    Spans (readPayload (fuel + 1) ty) bytes (3 * bytes.length ≤ fuel) fun _ => True

theorem Delimited.payload {v : Value} (held : Delimited v) {ty : Ty} {bytes : List UInt8}
    (written : encodePayload ty v = .ok bytes) (fuel : Nat) :
    Spans (readPayload fuel ty) bytes (3 * bytes.length + 1 ≤ fuel) fun _ => True := by
  cases fuel with
  | zero => exact .outOfBytes (by omega) bytes
  | succ fuel => exact (held fuel written).of_enough (by omega)

section Contents

variable {known : Option Ty} {bytes : List UInt8}

theorem spans_value {v : Value} (held : Delimited v) (written : encodeValue known v = .ok bytes)
    (fuel : Nat) :
    Spans (readValue fuel known) bytes (3 * bytes.length + 2 ≤ fuel) fun _ => True := by
  cases fuel with
  | zero => exact .outOfBytes (by omega) bytes
  | succ fuel =>
    cases known with
    | some t => exact (held.payload written fuel).of_enough (by omega)
    | none =>
      rw [encodeValue, after_eq_ok] at written
      obtain ⟨tail, written, rfl⟩ := written
      rw [List.length_append]
      refine ((spans_topTy v.ty fuel).of_enough (by omega)).bind ?_
      rintro _ rfl
      exact (held.payload written fuel).of_enough (by omega)

theorem spans_slot {slot : Slot} (held : ∀ v ∈ slot, Delimited v)
    (written : encodeSlot known slot = .ok bytes) (fuel : Nat) :
    Spans (readSlot fuel known) bytes (3 * bytes.length ≤ fuel) fun _ => True := by
  have nonempty := length_encodeSlot_pos written
  cases fuel with
  | zero => exact .outOfBytes (by omega) bytes
  | succ fuel =>
    refine .position_bind fun offset => ?_
    cases slot with
    | none =>
      cases written
      refine (spans_readByte absent _).bind_last ?_
      rintro _ rfl
      exact .pure trivial
    | some v =>
      rw [encodeSlot_some, after_eq_ok] at written
      obtain ⟨tail, written, rfl⟩ := written
      refine (spans_readByte present _).bind ?_
      rintro _ rfl
      refine ((spans_value (held v rfl) written fuel).of_enough ?_).bind_last fun _ _ => .pure trivial
      rw [List.length_append, List.length_singleton]
      omega

theorem spans_items {items : List Slot} (held : ∀ slot ∈ items, ∀ v ∈ slot, Delimited v)
    (written : encodeItems known items = .ok bytes) (fuel : Nat) :
    Spans (readItems fuel known items.length) bytes (3 * bytes.length + 1 ≤ fuel) fun _ => True := by
  induction items generalizing bytes fuel with
  | nil =>
    cases written
    cases fuel <;> exact .pure trivial
  | cons item rest ih =>
    cases fuel with
    | zero => exact .outOfBytes (by omega) bytes
    | succ fuel =>
      rw [encodeItems, both_eq_ok] at written
      obtain ⟨left, head, right, tail, rfl⟩ := written
      have nonempty := length_encodeSlot_pos head
      have first := spans_slot (held item List.mem_cons_self) head fuel
      have others := ih (fun slot member => held slot (List.mem_cons_of_mem _ member)) tail fuel
      rw [List.length_append]
      exact (first.of_enough (by omega)).bind fun _ _ =>
        (others.of_enough (by omega)).bind_last fun _ _ => .pure trivial

theorem spans_pairs {knownKey knownValue : Option Ty} {pairs : List (Value × Slot)}
    (keys : ∀ pair ∈ pairs, Delimited pair.1)
    (values : ∀ pair ∈ pairs, ∀ v ∈ pair.2, Delimited v)
    (written : encodePairs knownKey knownValue pairs = .ok bytes) (fuel : Nat) :
    Spans (readPairs fuel knownKey knownValue pairs.length) bytes (3 * bytes.length + 1 ≤ fuel)
      fun _ => True := by
  induction pairs generalizing bytes fuel with
  | nil =>
    cases written
    cases fuel <;> exact .pure trivial
  | cons pair rest ih =>
    obtain ⟨key, slot⟩ := pair
    cases fuel with
    | zero => exact .outOfBytes (by omega) bytes
    | succ fuel =>
      rw [encodePairs_cons, both_eq_ok] at written
      obtain ⟨left, head, right, tail, rfl⟩ := written
      rw [both_eq_ok] at head
      obtain ⟨keyBytes, keyWritten, slotBytes, slotWritten, rfl⟩ := head
      have nonempty := length_encodeSlot_pos slotWritten
      have first := spans_value (keys (key, slot) List.mem_cons_self) keyWritten fuel
      have second := spans_slot (values (key, slot) List.mem_cons_self) slotWritten fuel
      have others := ih (fun pair member => keys pair (List.mem_cons_of_mem _ member))
        (fun pair member => values pair (List.mem_cons_of_mem _ member)) tail fuel
      rw [List.append_assoc, List.length_append, List.length_append]
      exact (first.of_enough (by omega)).bind fun _ _ => (second.of_enough (by omega)).bind fun _ _ =>
        (others.of_enough (by omega)).bind_last fun _ _ => .pure trivial

/-- The contents of a sequence behind its element type and its length. -/
private theorem spans_sequence {declared own : Option Ty} {items : List Slot}
    {make : Option Ty → List Slot → Value} (held : ∀ slot ∈ items, ∀ v ∈ slot, Delimited v)
    (written : after (inlineTy declared own) (both (encodeLength items.length)
      (encodeItems (declared.or own) items)) = .ok bytes) (fuel : Nat) :
    Spans (readInlineTy fuel declared >>= fun element => readNat 4 >>= fun length =>
      readItems fuel element length >>= fun items => return make element items) bytes
      (3 * bytes.length ≤ fuel) fun _ => True := by
  obtain ⟨tail, payload, rfl⟩ := after_eq_ok.mp written
  obtain ⟨left, length, right, contents, rfl⟩ := both_eq_ok.mp payload
  have four := length_encodeLength length
  rw [List.length_append, List.length_append]
  refine ((spans_inlineTy declared own fuel).of_enough (by omega)).bind ?_
  rintro _ rfl
  refine (spans_length length _).bind ?_
  rintro _ rfl
  exact ((spans_items held contents fuel).of_enough (by omega)).bind_last fun _ _ => .pure trivial

/-- What stands behind the two child types of a map or an entry. -/
private theorem spans_inlineTys {declaredKey ownKey declaredValue ownValue : Option Ty} {fuel : Nat}
    {next : Option Ty → Option Ty → Reader Value} {enough : Prop}
    (room : enough → (inlineTy declaredKey ownKey).length ≤ fuel ∧
      (inlineTy declaredValue ownValue).length ≤ fuel)
    (behind : Spans (next (declaredKey.or ownKey) (declaredValue.or ownValue)) bytes enough
      fun _ => True) :
    Spans (readInlineTy fuel declaredKey >>= fun keyTy => readInlineTy fuel declaredValue >>=
      fun valueTy => next keyTy valueTy)
      (inlineTy declaredKey ownKey ++ inlineTy declaredValue ownValue ++ bytes) enough
      fun _ => True := by
  rw [List.append_assoc]
  refine ((spans_inlineTy declaredKey ownKey fuel).of_enough fun held => (room held).1).bind ?_
  rintro _ rfl
  refine ((spans_inlineTy declaredValue ownValue fuel).of_enough fun held => (room held).2).bind ?_
  rintro _ rfl
  exact behind

end Contents

/-- Every value is delimited by its payload, one whose maps repeat their keys included. -/
theorem delimited (v : Value) : Delimited v := by
  induction v with
  | integer | float | double | string | entity | position =>
    intro ty bytes fuel written
    obtain ⟨rfl, -⟩ := reads_scalar rfl written
    exact spans_scalar rfl written _
  | list own items ih =>
    intro ty bytes fuel written
    cases ty with
    | list declared => exact spans_sequence ih written fuel
    | _ => cases written
  | iterator own items ih =>
    intro ty bytes fuel written
    cases ty with
    | iterator declared => exact spans_sequence ih written fuel
    | _ => cases written
  | map ownKey ownValue pairs keyHeld valueHeld =>
    intro ty bytes fuel written
    cases ty with
    | map declaredKey declaredValue =>
      obtain ⟨tail, payload, rfl⟩ := after_eq_ok.mp written
      obtain ⟨left, length, right, contents, rfl⟩ := both_eq_ok.mp payload
      have four := length_encodeLength length
      have read := spans_pairs keyHeld valueHeld contents fuel
      simp only [List.length_append]
      refine spans_inlineTys (by omega) ((spans_length length _).bind ?_)
      rintro _ rfl
      exact (read.of_enough (by omega)).bind_last fun _ _ => .pure trivial
    | _ => cases written
  | entry ownKey ownValue key value keyHeld valueHeld =>
    intro ty bytes fuel written
    cases ty with
    | entry declaredKey declaredValue =>
      obtain ⟨tail, payload, rfl⟩ := after_eq_ok.mp written
      obtain ⟨left, first, right, second, rfl⟩ := both_eq_ok.mp payload
      have keyHalf := spans_slot keyHeld first fuel
      have valueHalf := spans_slot valueHeld second fuel
      simp only [List.length_append]
      exact spans_inlineTys (by omega) ((keyHalf.of_enough (by omega)).bind fun _ _ =>
        (valueHalf.of_enough (by omega)).bind_last fun _ _ => .pure trivial)
    | _ => cases written

/-! ### Whole encodings -/

private theorem spans_typed {t : TypedValue} {bytes : List UInt8} (written : encode t = .ok bytes)
    (fuel : Nat) :
    Spans (do
      let ty ← readTy fuel
      let slot ← readSlot fuel (some ty)
      return (ty, slot) : Reader (Ty × Slot)) bytes (3 * bytes.length ≤ fuel) fun _ => True := by
  obtain ⟨tail, payload, rfl⟩ := after_eq_ok.mp written
  rw [List.length_append]
  refine ((spans_topTy t.ty fuel).of_enough (by omega)).bind ?_
  rintro _ rfl
  exact ((spans_slot (fun v _ => delimited v) payload fuel).of_enough (by omega)).bind_last
    fun _ _ => .pure trivial

/-- No encoding is the beginning of another input that can be decoded, and none of its own beginnings is
one. What follows it is counted as left over, and where it is cut off a byte is asked for that lies at or
before the cut. -/
theorem decode_around_encoding {t : TypedValue} {bytes : List UInt8} (written : encode t = .ok bytes) :
    (∀ more, more ≠ [] → decode (bytes ++ more) = .error (.trailing more.length)) ∧
      ∀ front, front <+: bytes → front ≠ bytes →
        ∃ offset, offset ≤ front.length ∧ decode front = .error (.unexpectedEnd offset) := by
  constructor
  · intro more present
    cases spans_typed written (3 * (bytes ++ more).length + 3) (bytes ++ more) 0
      (.inr (List.prefix_append bytes more)) with
    | cut short =>
      have longer := short (by rw [List.length_append]; omega)
      rw [List.length_append] at longer
      omega
    | @taken a rest held follows run =>
      obtain rfl := List.append_cancel_left follows
      unfold decode
      dsimp only
      rw [run]
      cases rest with
      | nil => exact absurd rfl present
      | cons byte rest => rfl
  · intro front before other
    cases spans_typed written (3 * front.length + 3) front 0 (.inl before) with
    | @taken a rest held follows run =>
      have whole : bytes <+: front := ⟨rest, follows⟩
      exact absurd (before.eq_of_length_le whole.length_le) other
    | @cut place short within run =>
      refine ⟨place, by rwa [Nat.zero_add] at within, ?_⟩
      unfold decode
      dsimp only
      rw [run]
      rfl

/-- A list whose element type stands before its contents. The input that ends within the two bytes of a
character is not one with an invalid text. -/
theorem decode_around_encoding_inline :
    let t : TypedValue := ⟨.list none, some (.list (some .string) [some (.string "é"), none])⟩
    let bytes : List UInt8 := [16, 255, 1, 6, 0, 0, 0, 2, 1, 0, 0, 0, 2, 195, 169, 0]
    encode t = .ok bytes ∧ decode (bytes.take 14) = .error (.unexpectedEnd 13) ∧
      (∀ more, more ≠ [] → decode (bytes ++ more) = .error (.trailing more.length)) ∧
      ∀ front, front <+: bytes → front ≠ bytes →
        ∃ offset, offset ≤ front.length ∧ decode front = .error (.unexpectedEnd offset) := by
  intro t bytes
  have string : encodePayload .string (.string "é") = .ok [0, 0, 0, 2, 195, 169] := by
    have text : "é".toUTF8.toList = [195, 169] := by decide +kernel
    have size : "é".utf8ByteSize = 2 := by decide +kernel
    rw [encodePayload, if_pos rfl, text, size]
    rfl
  have item : encodeSlot (some .string) (some (.string "é")) = .ok [1, 0, 0, 0, 2, 195, 169] := by
    rw [encodeSlot, string]
    rfl
  have written : encode t = .ok bytes := by
    rw [encode, encodeSlot, encodePayload]
    dsimp only [Option.or]
    rw [encodeItems, item]
    rfl
  exact ⟨written, rfl, decode_around_encoding written⟩

end Immediate.Codec
