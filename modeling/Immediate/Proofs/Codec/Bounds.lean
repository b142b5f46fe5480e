import Immediate.Proofs.Codec.Reading
import Immediate.Proofs.Contents
import Immediate.Proofs.Outcomes
/-! Decoding is bounded by its input. Whatever lengths the bytes announce, a reader goes forward and not
beyond them, an error names no place behind their end, and each slot that is read has taken a byte of its
own. So has each key of a map unless it is an entry, whose payload is nothing but its two halves; with
such keys what is decoded may hold more than there are bytes, though by no more than a third. -/
namespace Immediate

namespace Value

/-! ### Counting what a value holds -/

mutual

/-- How many slots a value holds at any depth, and how many keys of its maps. Of keys only those of
some kinds count; what they hold counts whatever their kind. -/
def places (counted : Kind → Bool) : Value → Nat
  | .integer .. | .float _ | .double _ | .string _ | .entity _ | .position _ => 0
  | .list _ items | .iterator _ items => itemsPlaces counted items
  | .map _ _ pairs => pairsPlaces counted pairs
  | .entry _ _ key value => slotPlaces counted key + slotPlaces counted value

/-- The same for a slot, which is one itself. -/
def slotPlaces (counted : Kind → Bool) : Option Value → Nat
  | none => 1
  | some v => 1 + v.places counted

/-- The same for the slots of a sequence. -/
def itemsPlaces (counted : Kind → Bool) : List (Option Value) → Nat
  | [] => 0
  | item :: rest => slotPlaces counted item + itemsPlaces counted rest

/-- The same for the keys and slots of a map. -/
def pairsPlaces (counted : Kind → Bool) : List (Value × Option Value) → Nat
  | [] => 0
  | (key, value) :: rest =>
    (counted key.kind).toNat + key.places counted + slotPlaces counted value +
      pairsPlaces counted rest

end

/-- What a key adds to the places of its map. -/
def keyPlaces (counted : Kind → Bool) (key : Value) : Nat :=
  (counted key.kind).toNat + key.places counted

/-- Every key. -/
abbrev everyKey : Kind → Bool := fun _ => true

/-- Every key but those that are entries. -/
abbrev otherKeys : Kind → Bool := (· ≠ .entry)

section Maps

variable {counted : Kind → Bool}

theorem pairsPlaces_cons (pair : Value × Slot) (rest : List (Value × Slot)) :
    pairsPlaces counted (pair :: rest) =
      keyPlaces counted pair.1 + slotPlaces counted pair.2 + pairsPlaces counted rest := rfl

private theorem pairsPlaces_insert_le (pairs : List (Value × Slot)) (key : Value) (slot : Slot) :
    pairsPlaces counted (insert pairs key slot) ≤
      pairsPlaces counted pairs + (keyPlaces counted key + slotPlaces counted slot) := by
  induction pairs with
  | nil => exact Nat.le_of_eq (Nat.add_comm ..)
  | cons pair rest ih =>
    unfold Value.insert
    split
    · rw [pairsPlaces_cons, pairsPlaces_cons]
      dsimp only
      omega
    · rw [pairsPlaces_cons, pairsPlaces_cons]
      omega

/-- Of keys that are the same one is kept, and under it what was put there last. -/
theorem pairsPlaces_insertAll_le (pairs more : List (Value × Slot)) :
    pairsPlaces counted (insertAll pairs more) ≤
      pairsPlaces counted pairs + pairsPlaces counted more := by
  induction more generalizing pairs with
  | nil => exact Nat.le_refl _
  | cons pair rest ih =>
    have first := @pairsPlaces_insert_le counted pairs pair.1 pair.2
    have others := ih (Value.insert pairs pair.1 pair.2)
    rw [pairsPlaces_cons]
    exact Nat.le_trans others (by omega)

end Maps

/-! ### Keys that are entries -/

/-- Four thirds of the places without the keys that are entries make up for those as well. The two
halves of an entry leave room for the entry itself as a key. -/
structure MadeUp (v : Value) : Prop where
  held : 3 * v.places everyKey ≤ 4 * v.places otherKeys
  asKey : 3 * keyPlaces everyKey v ≤ 4 * keyPlaces otherKeys v + 1

private theorem madeUp_of_other {v : Value} (other : v.kind ≠ .entry)
    (held : 3 * v.places everyKey ≤ 4 * v.places otherKeys) : MadeUp v := by
  refine ⟨held, ?_⟩
  simp only [keyPlaces, everyKey, otherKeys, decide_eq_true other, Bool.toNat_true] at held ⊢
  omega

private theorem slot_madeUp {slot : Slot} (each : ∀ v ∈ slot, MadeUp v) :
    3 * slotPlaces everyKey slot + 1 ≤ 4 * slotPlaces otherKeys slot := by
  cases slot with
  | none => decide
  | some v =>
    have inside := (each v rfl).held
    simp only [slotPlaces]
    omega

private theorem items_madeUp {items : List Slot} (each : ∀ slot ∈ items, ∀ v ∈ slot, MadeUp v) :
    3 * itemsPlaces everyKey items ≤ 4 * itemsPlaces otherKeys items := by
  induction items with
  | nil => exact Nat.le_refl 0
  | cons item rest ih =>
    have first := slot_madeUp (each item List.mem_cons_self)
    have others := ih fun slot member => each slot (List.mem_cons_of_mem _ member)
    simp only [itemsPlaces]
    omega

private theorem pairs_madeUp {pairs : List (Value × Slot)} (keys : ∀ pair ∈ pairs, MadeUp pair.1)
    (values : ∀ pair ∈ pairs, ∀ v ∈ pair.2, MadeUp v) :
    3 * pairsPlaces everyKey pairs ≤ 4 * pairsPlaces otherKeys pairs := by
  induction pairs with
  | nil => exact Nat.le_refl 0
  | cons pair rest ih =>
    have key := (keys pair List.mem_cons_self).asKey
    have value := slot_madeUp (values pair List.mem_cons_self)
    have others := ih (fun other member => keys other (List.mem_cons_of_mem _ member))
      fun other member => values other (List.mem_cons_of_mem _ member)
    simp only [pairsPlaces_cons]
    omega

private theorem madeUp (v : Value) : MadeUp v := by
  induction v with
  | integer | float | double | string | entity | position =>
    exact madeUp_of_other nofun (Nat.le_refl 0)
  | list own items ih => exact madeUp_of_other nofun (items_madeUp ih)
  | iterator own items ih => exact madeUp_of_other nofun (items_madeUp ih)
  | map ownKey ownValue pairs keys values => exact madeUp_of_other nofun (pairs_madeUp keys values)
  | entry ownKey ownValue key value keyHeld valueHeld =>
    have first := slot_madeUp keyHeld
    have second := slot_madeUp valueHeld
    constructor
    · simp only [places]
      omega
    · change 3 * (1 + (slotPlaces everyKey key + slotPlaces everyKey value)) ≤
        4 * (0 + (slotPlaces otherKeys key + slotPlaces otherKeys value)) + 1
      omega

/-- At most a quarter of all places in a slot are keys that are entries. -/
theorem slotPlaces_everyKey_le (slot : Slot) :
    3 * slotPlaces everyKey slot ≤ 4 * slotPlaces otherKeys slot :=
  Nat.le_of_succ_le (slot_madeUp fun v _ => madeUp v)

end Value

namespace Codec

open Value

/-! ### How far a reader goes -/

/-- The place in the input that an error names, if it names one. -/
def CodecError.offset? : CodecError → Option Nat
  | .unexpectedEnd offset | .unknownKind _ offset | .invalidPresence _ offset
  | .invalidText offset => some offset
  | .missingType | .trailing _ | .wrongKind .. | .tooLarge _ => none

/-- The input with a number of bytes read. -/
def Input.advance (input : Input) (count : Nat) : Input :=
  ⟨input.rest.drop count, input.offset + count⟩

/-- How a reader ends on an input. It has read a number of the bytes that were left, and what it gives
for so many has a property; or it fails and names no place behind their end. -/
inductive Stays {α : Type} (reader : Reader α) (given : α → Nat → Prop) (input : Input) : Prop where
  | read {a : α} {count : Nat} (within : count ≤ input.rest.length)
    (run : reader.run input = .ok (a, input.advance count)) (held : given a count)
  | failed {e : CodecError} (run : reader.run input = .error e)
    (named : ∀ offset ∈ e.offset?, offset ≤ input.offset + input.rest.length)

namespace Stays

variable {α β : Type} {reader : Reader α} {next : α → Reader β} {given : α → Nat → Prop}
  {result : β → Nat → Prop} {input : Input}

theorem pure {a : α} (held : given a 0) : Stays (Pure.pure a) given input :=
  .read (Nat.zero_le _) rfl held

theorem throw {e : CodecError}
    (named : ∀ offset ∈ e.offset?, offset ≤ input.offset + input.rest.length) :
    Stays (MonadExcept.throw e : Reader α) given input := .failed rfl named

theorem outOfBytes : Stays (Codec.outOfBytes : Reader α) given input := by
  refine .failed rfl ?_
  rintro _ ⟨⟩
  exact Nat.le_add_right ..

theorem of_ok {a : α} {later : Input} (stays : Stays reader given input)
    (run : reader.run input = .ok (a, later)) :
    ∃ count ≤ input.rest.length, later = input.advance count ∧ given a count := by
  cases stays with
  | read within ran held =>
    cases ran.symm.trans run
    exact ⟨_, within, rfl, held⟩
  | failed failed => cases failed.symm.trans run

theorem of_error {e : CodecError} (stays : Stays reader given input)
    (run : reader.run input = .error e) :
    ∀ offset ∈ e.offset?, offset ≤ input.offset + input.rest.length := by
  cases stays with
  | read _ ran => cases ran.symm.trans run
  | failed failed named =>
    cases failed.symm.trans run
    exact named

theorem weaken {less : α → Nat → Prop} (stays : Stays reader given input)
    (follows : ∀ a count, given a count → less a count) : Stays reader less input := by
  cases stays with
  | read within run held => exact .read within run (follows _ _ held)
  | failed run named => exact .failed run named

theorem bind (first : Stays reader given input)
    (second : ∀ a count, count ≤ input.rest.length → given a count →
      Stays (next a) (fun b more => result b (count + more)) (input.advance count)) :
    Stays (reader >>= next) result input := by
  cases first with
  | failed run named => exact .failed (by rw [StateT.run_bind, run]; rfl) named
  | @read a count within run held =>
    have chained : (reader >>= next).run input = (next a).run (input.advance count) := by
      rw [StateT.run_bind, run]
      rfl
    have left : (input.advance count).rest.length = input.rest.length - count := List.length_drop
    cases second a count within held with
    | @read b more within' run' held' =>
      refine .read (by omega) (chained.trans (run'.trans ?_)) held'
      simp only [Input.advance, List.drop_drop, Nat.add_assoc]
    | failed run' named =>
      refine .failed (chained.trans run') fun offset known => ?_
      have bound := named offset known
      have moved : (input.advance count).offset = input.offset + count := rfl
      omega

/-- A last step that reads nothing. -/
theorem bind_pure {f : α → β} (first : Stays reader given input)
    (held : ∀ a count, given a count → result (f a) count) :
    Stays (reader >>= fun a => Pure.pure (f a)) result input :=
  first.bind fun a count _ before => pure (held a count before)

theorem position_bind {next : Nat → Reader β} (second : Stays (next input.offset) result input) :
    Stays (position >>= next) result input := by
  cases second with
  | read within run held => exact .read within run held
  | failed run named => exact .failed run named

end Stays

/-! ### Numbers and types -/

theorem stays_take (count : Nat) (input : Input) :
    Stays (take count) (fun _ read => read = count) input := by
  by_cases short : (input.rest.take count).length < count
  · refine .failed ((run_take ..).trans (if_pos short)) ?_
    rintro _ ⟨⟩
    exact Nat.le_add_right ..
  · refine .read ?_ ((run_take ..).trans (if_neg short)) rfl
    rw [List.length_take] at short
    omega

theorem stays_readByte (input : Input) : Stays readByte (fun _ read => read = 1) input := by
  obtain ⟨rest, offset⟩ := input
  cases rest with
  | nil =>
    refine .failed rfl ?_
    rintro _ ⟨⟩
    exact Nat.le_add_right ..
  | cons byte rest => exact .read (Nat.succ_pos _) rfl rfl

theorem stays_readNat (width : Nat) (input : Input) :
    Stays (readNat width) (fun _ read => read = width) input := by
  rw [readNat, map_eq_pure_bind]
  exact (stays_take width input).bind_pure fun _ _ read => read

/-- Each type has a byte of its own. -/
theorem stays_readChildTy (fuel : Nat) (input : Input) :
    Stays (readChildTy fuel) (fun _ read => 1 ≤ read) input := by
  induction fuel generalizing input with
  | zero => exact .outOfBytes
  | succ fuel ih =>
    refine .position_bind ((stays_readByte input).bind ?_)
    rintro id _ within rfl
    have behind (t : Option Ty) : Stays (Pure.pure t : Reader (Option Ty)) (fun _ more => 1 ≤ 1 + more)
        (input.advance 1) := .pure (Nat.le_refl 1)
    have one (make : Option Ty → Ty) : Stays (readChildTy fuel >>= fun child => return some (make child))
        (fun _ more => 1 ≤ 1 + more) (input.advance 1) :=
      (ih _).bind_pure fun _ _ _ => Nat.le_add_right ..
    have two (make : Option Ty → Option Ty → Ty) :
        Stays (readChildTy fuel >>= fun key => readChildTy fuel >>= fun value =>
          return some (make key value)) (fun _ more => 1 ≤ 1 + more) (input.advance 1) :=
      (ih _).bind fun _ _ _ _ => (ih _).bind_pure fun _ _ _ => Nat.le_add_right ..
    split
    · exact behind none
    split
    · refine .throw ?_
      rintro _ ⟨⟩
      change input.offset ≤ input.offset + 1 + _
      omega
    · exact behind _
    · exact one .list
    · exact one .iterator
    · exact two .map
    · exact two .entry

theorem stays_readTy (fuel : Nat) (input : Input) :
    Stays (readTy fuel) (fun _ read => 1 ≤ read) input := by
  refine (stays_readChildTy fuel input).bind fun child count within held => ?_
  cases child with
  | none => exact .throw nofun
  | some t => exact .pure held

theorem stays_readInlineTy (fuel : Nat) (declared : Option Ty) (input : Input) :
    Stays (readInlineTy fuel declared) (fun _ _ => True) input := by
  cases declared with
  | none => exact (stays_readChildTy fuel input).weaken fun _ _ _ => trivial
  | some t => exact .pure trivial

/-! ### Values -/

/-- Each scalar has a byte of its own. -/
theorem stays_readScalar (s : Scalar) (input : Input) :
    Stays (readScalar s) (fun v read => keyPlaces otherKeys v ≤ read) input := by
  have fixed {width : Nat} (some : 0 < width) (make : Nat → Value)
      (alone : ∀ n, keyPlaces otherKeys (make n) = 1) :
      Stays (readNat width >>= fun n => return make n) (fun v read => keyPlaces otherKeys v ≤ read)
        input :=
    (stays_readNat width input).bind_pure fun n _ read => by rw [alone n, read]; exact some
  cases s with
  | integer width => exact fixed (by cases width <;> decide) _ fun _ => rfl
  | float => exact fixed (by decide) _ fun _ => rfl
  | double => exact fixed (by decide) _ fun _ => rfl
  | entity => exact fixed (by decide) _ fun _ => rfl
  | string =>
    refine (stays_readNat 4 input).bind ?_
    rintro length _ within rfl
    refine .position_bind ((stays_take length _).bind fun bytes count _ _ => ?_)
    split
    · refine .pure ?_
      change 1 ≤ 4 + (count + 0)
      omega
    · refine .throw ?_
      rintro _ ⟨⟩
      change input.offset + 4 ≤ input.offset + 4 + count + _
      omega
  | position =>
    refine (stays_readNat 8 input).bind ?_
    rintro x _ - rfl
    refine (stays_readNat 8 _).bind ?_
    rintro y _ - rfl
    refine (stays_readNat 8 _).bind_pure ?_
    rintro z _ rfl
    change 1 ≤ 8 + (8 + 8)
    decide

/-- Readers with this fuel stay within the input and give no more places than they have read bytes. -/
private structure Within (fuel : Nat) : Prop where
  payload (t : Ty) (input : Input) :
    Stays (readPayload fuel t) (fun v read => keyPlaces otherKeys v ≤ read) input
  value (known : Option Ty) (input : Input) :
    Stays (readValue fuel known) (fun v read => keyPlaces otherKeys v ≤ read) input
  slot (known : Option Ty) (input : Input) :
    Stays (readSlot fuel known) (fun slot read => slotPlaces otherKeys slot ≤ read) input
  items (known : Option Ty) (count : Nat) (input : Input) :
    Stays (readItems fuel known count) (fun items read => itemsPlaces otherKeys items ≤ read) input
  pairs (knownKey knownValue : Option Ty) (count : Nat) (input : Input) :
    Stays (readPairs fuel knownKey knownValue count)
      (fun pairs read => pairsPlaces otherKeys pairs ≤ read) input

namespace Within

variable {fuel : Nat} (below : Within fuel)
include below

private theorem sequence (declared : Option Ty) (make : Option Ty → List Slot → Value)
    (counts : ∀ element items, keyPlaces otherKeys (make element items) =
      1 + itemsPlaces otherKeys items) (input : Input) :
    Stays (readInlineTy fuel declared >>= fun element => readNat 4 >>= fun count =>
      readItems fuel element count >>= fun items => return make element items)
      (fun v read => keyPlaces otherKeys v ≤ read) input := by
  refine (stays_readInlineTy fuel declared input).bind fun element _ _ _ => ?_
  refine (stays_readNat 4 _).bind ?_
  rintro count _ - rfl
  refine (below.items element count _).bind_pure fun items read held => ?_
  rw [counts]
  omega

private theorem succ_payload (t : Ty) (input : Input) :
    Stays (readPayload (fuel + 1) t) (fun v read => keyPlaces otherKeys v ≤ read) input := by
  cases t with
  | scalar s => exact stays_readScalar s input
  | list declared => exact below.sequence declared .list (fun _ _ => rfl) input
  | iterator declared => exact below.sequence declared .iterator (fun _ _ => rfl) input
  | map declaredKey declaredValue =>
    refine (stays_readInlineTy fuel declaredKey input).bind fun keyTy _ _ _ => ?_
    refine (stays_readInlineTy fuel declaredValue _).bind fun valueTy _ _ _ => ?_
    refine (stays_readNat 4 _).bind ?_
    rintro count _ - rfl
    refine (below.pairs keyTy valueTy count _).bind_pure fun pairs read held => ?_
    have inserted : pairsPlaces otherKeys (insertAll [] pairs) ≤ 0 + pairsPlaces otherKeys pairs :=
      pairsPlaces_insertAll_le [] pairs
    change 1 + pairsPlaces otherKeys (insertAll [] pairs) ≤ _
    omega
  | entry declaredKey declaredValue =>
    refine (stays_readInlineTy fuel declaredKey input).bind fun keyTy _ _ _ => ?_
    refine (stays_readInlineTy fuel declaredValue _).bind fun valueTy _ _ _ => ?_
    refine (below.slot keyTy _).bind fun key first _ keyHeld => ?_
    refine (below.slot valueTy _).bind_pure fun value second valueHeld => ?_
    change 0 + (slotPlaces otherKeys key + slotPlaces otherKeys value) ≤ _
    omega

private theorem succ_value (known : Option Ty) (input : Input) :
    Stays (readValue (fuel + 1) known) (fun v read => keyPlaces otherKeys v ≤ read) input := by
  cases known with
  | some t => exact below.payload t input
  | none =>
    refine (stays_readTy fuel input).bind fun t _ _ _ => ?_
    exact (below.payload t _).weaken fun v read held => Nat.le_add_left_of_le held

private theorem succ_slot (known : Option Ty) (input : Input) :
    Stays (readSlot (fuel + 1) known) (fun slot read => slotPlaces otherKeys slot ≤ read) input := by
  refine .position_bind ((stays_readByte input).bind ?_)
  rintro marker _ - rfl
  split
  · exact .pure (Nat.le_refl 1)
  split
  · refine (below.value known _).bind_pure fun v read held => ?_
    have inside : v.places otherKeys ≤ read := Nat.le_trans (Nat.le_add_left ..) held
    exact Nat.add_le_add_left inside 1
  · refine .throw ?_
    rintro _ ⟨⟩
    change input.offset ≤ input.offset + 1 + _
    omega

private theorem succ_items (known : Option Ty) (count : Nat) (input : Input) :
    Stays (readItems (fuel + 1) known count) (fun items read => itemsPlaces otherKeys items ≤ read)
      input := by
  cases count with
  | zero => exact .pure (Nat.le_refl 0)
  | succ count =>
    refine (below.slot known input).bind fun item first _ held => ?_
    refine (below.items known count _).bind_pure fun rest more others => ?_
    simp only [itemsPlaces]
    omega

private theorem succ_pairs (knownKey knownValue : Option Ty) (count : Nat) (input : Input) :
    Stays (readPairs (fuel + 1) knownKey knownValue count)
      (fun pairs read => pairsPlaces otherKeys pairs ≤ read) input := by
  cases count with
  | zero => exact .pure (Nat.le_refl 0)
  | succ count =>
    refine (below.value knownKey input).bind fun key first _ keyHeld => ?_
    refine (below.slot knownValue _).bind fun value second _ valueHeld => ?_
    refine (below.pairs knownKey knownValue count _).bind_pure fun rest more others => ?_
    change keyPlaces otherKeys key + slotPlaces otherKeys value + pairsPlaces otherKeys rest ≤ _
    omega

end Within

private theorem within (fuel : Nat) : Within fuel := by
  induction fuel with
  | zero =>
    refine ⟨fun _ _ => .outOfBytes, fun _ _ => .outOfBytes, fun _ _ => .outOfBytes,
      fun _ count _ => ?_, fun _ _ count _ => ?_⟩
    · cases count with
      | zero => exact .pure (Nat.le_refl 0)
      | succ count => exact .outOfBytes
    · cases count with
      | zero => exact .pure (Nat.le_refl 0)
      | succ count => exact .outOfBytes
  | succ fuel below =>
    exact ⟨below.succ_payload, below.succ_value, below.succ_slot, below.succ_items, below.succ_pairs⟩

/-! ### Whole runs -/

/-- The readers that decoding is put together from. All but the first two leave it to others to move. -/
inductive Part : {α : Type} → Reader α → Prop where
  | byte : Part readByte
  | bytes (count : Nat) : Part (take count)
  | number (width : Nat) : Part (readNat width)
  | childTy (fuel : Nat) : Part (readChildTy fuel)
  | ty (fuel : Nat) : Part (readTy fuel)
  | inlineTy (fuel : Nat) (declared : Option Ty) : Part (readInlineTy fuel declared)
  | scalar (s : Scalar) : Part (readScalar s)
  | payload (fuel : Nat) (t : Ty) : Part (readPayload fuel t)
  | value (fuel : Nat) (known : Option Ty) : Part (readValue fuel known)
  | slot (fuel : Nat) (known : Option Ty) : Part (readSlot fuel known)
  | items (fuel : Nat) (known : Option Ty) (count : Nat) : Part (readItems fuel known count)
  | pairs (fuel : Nat) (knownKey knownValue : Option Ty) (count : Nat) :
    Part (readPairs fuel knownKey knownValue count)

/-- Where reading one part after another from the start of some bytes may have led. -/
inductive Reached (bytes : List UInt8) : Input → Prop where
  | start : Reached bytes ⟨bytes, 0⟩
  | further {α : Type} {reader : Reader α} {a : α} {input later : Input}
    (reached : Reached bytes input) (part : Part reader)
    (run : reader.run input = .ok (a, later)) : Reached bytes later

/-- One step: a part goes forward within what is left. -/
theorem stays_part {α : Type} {reader : Reader α} (part : Part reader) (input : Input) :
    Stays reader (fun _ _ => True) input := by
  have less {β : Type} {reader : Reader β} {given : β → Nat → Prop}
      (stays : Stays reader given input) : Stays reader (fun _ _ => True) input :=
    stays.weaken fun _ _ _ => trivial
  cases part with
  | byte => exact less (stays_readByte input)
  | bytes count => exact less (stays_take count input)
  | number width => exact less (stays_readNat width input)
  | childTy fuel => exact less (stays_readChildTy fuel input)
  | ty fuel => exact less (stays_readTy fuel input)
  | inlineTy fuel declared => exact stays_readInlineTy fuel declared input
  | scalar s => exact less (stays_readScalar s input)
  | payload fuel t => exact less ((within fuel).payload t input)
  | value fuel known => exact less ((within fuel).value known input)
  | slot fuel known => exact less ((within fuel).slot known input)
  | items fuel known count => exact less ((within fuel).items known count input)
  | pairs fuel knownKey knownValue count =>
    exact less ((within fuel).pairs knownKey knownValue count input)

/-- An input is what is left of some bytes behind a place that is not beyond their end. -/
structure Inside (bytes : List UInt8) (input : Input) : Prop where
  left : input.rest = bytes.drop input.offset
  offset_le : input.offset ≤ bytes.length

namespace Inside

variable {bytes : List UInt8} {input : Input}

theorem finish (inside : Inside bytes input) : input.offset + input.rest.length = bytes.length := by
  rw [inside.left, List.length_drop]
  exact Nat.add_sub_cancel' inside.offset_le

theorem advance (inside : Inside bytes input) {count : Nat} (within : count ≤ input.rest.length) :
    Inside bytes (input.advance count) := by
  refine ⟨?_, ?_⟩
  · change input.rest.drop count = bytes.drop (input.offset + count)
    rw [inside.left, List.drop_drop]
  · rw [← inside.finish]
    exact Nat.add_le_add_left within _

end Inside

/-- A whole run: wherever parts have led, it is inside the bytes. -/
theorem inside_of_reached {bytes : List UInt8} {input : Input} (reached : Reached bytes input) :
    Inside bytes input := by
  induction reached with
  | start => exact ⟨rfl, Nat.zero_le _⟩
  | further _ part run before =>
    obtain ⟨count, within, rfl, -⟩ := (stays_part part _).of_ok run
    exact before.advance within

private theorem stays_typed (fuel : Nat) (input : Input) :
    Stays (do
      let ty ← readTy fuel
      let slot ← readSlot fuel (some ty)
      return (ty, slot) : Reader (Ty × Slot))
      (fun typed read => slotPlaces otherKeys typed.2 ≤ read) input := by
  refine (stays_readTy fuel input).bind fun ty first _ _ => ?_
  exact ((within fuel).slot (some ty) _).bind_pure fun slot read held => Nat.le_add_left_of_le held

/-- Whatever lengths the bytes announce, no part of decoding goes back or beyond the end, and no error
names a place behind it. What is decoded holds no more slots, itself and the keys of its maps included,
than there are bytes, but for keys that are entries; with these it holds at most a third more. -/
theorem bounded_of_decode (bytes : List UInt8) :
    (∀ input, Reached bytes input → Inside bytes input ∧
      ∀ {α : Type} (reader : Reader α), Part reader →
        (∀ a later, reader.run input = .ok (a, later) →
          input.offset ≤ later.offset ∧ later.offset ≤ bytes.length) ∧
        ∀ e offset, reader.run input = .error e → e.offset? = some offset →
          offset ≤ bytes.length) ∧
      (∀ e offset, decode bytes = .error e → e.offset? = some offset → offset ≤ bytes.length) ∧
      ∀ t, decode bytes = .ok t → slotPlaces otherKeys t.slot ≤ bytes.length ∧
        3 * slotPlaces everyKey t.slot ≤ 4 * bytes.length := by
  refine ⟨fun input reached => ?_, fun e offset refused named => ?_, fun t read => ?_⟩
  · have inside := inside_of_reached reached
    refine ⟨inside, fun reader part => ⟨fun a later run => ?_, fun e offset run named => ?_⟩⟩
    · obtain ⟨count, within, rfl, -⟩ := (stays_part part input).of_ok run
      exact ⟨Nat.le_add_right .., (inside.advance within).offset_le⟩
    · rw [← inside.finish]
      exact (stays_part part input).of_error run offset named
  · unfold decode at refused
    rcases Outcome.bind_eq_error.mp refused with run | ⟨⟨⟨ty, slot⟩, input⟩, -, ended⟩
    · have bound := (stays_typed _ ⟨bytes, 0⟩).of_error run offset named
      rwa [Nat.zero_add] at bound
    · dsimp only at ended
      split at ended
      · cases ended
      · cases ended
        cases named
  · unfold decode at read
    obtain ⟨⟨⟨ty, slot⟩, input⟩, run, ended⟩ := Outcome.bind_eq_ok.mp read
    obtain ⟨count, within, -, held⟩ := (stays_typed _ ⟨bytes, 0⟩).of_ok run
    dsimp only at ended
    split at ended
    · cases ended
      have others : slotPlaces otherKeys slot ≤ bytes.length := Nat.le_trans held within
      refine ⟨others, Nat.le_trans (slotPlaces_everyKey_le slot) ?_⟩
      exact Nat.mul_le_mul_left 4 others
    · cases ended

set_option maxRecDepth 2048 in
/-- A map whose only key is an entry; and a list that announces more than four thousand million items,
whose reading ends with the bytes. -/
theorem bounded_of_decode_announced :
    let bytes : List UInt8 := [32, 33, 0, 0, 0, 1, 0, 0, 0, 1, 1, 5, 0, 0]
    let keyTy : Ty := .entry (some .byte) (some .byte)
    let t : TypedValue := ⟨.map (some keyTy) (some .byte), some (.map (some keyTy) (some .byte)
      [(.entry (some .byte) (some .byte) (some (.integer .byte 5#8)) none, none)])⟩
    let announced : List UInt8 := [16, 0, 1, 255, 255, 255, 255, 0, 1]
    let behind : Input := ⟨announced.drop 2, 2⟩
    (decode bytes = .ok t ∧ slotPlaces otherKeys t.slot ≤ bytes.length ∧
      3 * slotPlaces everyKey t.slot ≤ 4 * bytes.length) ∧
      (decode announced = .error (.unexpectedEnd 9) ∧ 9 ≤ announced.length) ∧
      ((readTy 3).run ⟨announced, 0⟩ = .ok (.list (some .byte), behind) ∧
        0 ≤ behind.offset ∧ behind.offset ≤ announced.length) ∧
      (readSlot 6 (some (.list (some .byte)))).run behind = .error (.unexpectedEnd 9) ∧
        9 ≤ announced.length := by
  intro bytes keyTy t announced behind
  have read : decode bytes = .ok t := rfl
  have refused : decode announced = .error (.unexpectedEnd 9) := rfl
  have typed : (readTy 3).run ⟨announced, 0⟩ = .ok (.list (some .byte), behind) := rfl
  have ended : (readSlot 6 (some (.list (some .byte)))).run behind = .error (.unexpectedEnd 9) := rfl
  obtain ⟨-, -, held⟩ := bounded_of_decode bytes
  obtain ⟨parts, errors, -⟩ := bounded_of_decode announced
  have first := ((parts _ .start).2 _ (.ty 3)).1 _ _ typed
  have second := ((parts _ (.further .start (.ty 3) typed)).2 _ (.slot 6 _)).2 _ _ ended rfl
  exact ⟨⟨read, held t read⟩, ⟨refused, errors _ _ refused rfl⟩, ⟨typed, first⟩, ended, second⟩

/-- Keys that are entries may outnumber the bytes that are left over for them: here are twenty-five of
them, made of nothing but entries and empty halves, in 257 bytes that hold 261 places. -/
theorem crowded_by_entries :
    let halves : List (List UInt8) :=
      [[0], [1, 0, 0], [1, 1, 0, 0, 0], [1, 0, 1, 0, 0], [1, 1, 0, 0, 1, 0, 0]]
    let pairs := halves.flatMap fun first => halves.flatMap fun second => first ++ second ++ [0]
    let bytes := [32, 33, 33, 33, 0, 0, 33, 0, 0, 33, 33, 0, 0, 33, 0, 0, 0, 1, 0, 0, 0, 25] ++ pairs
    ∃ t, decode bytes = .ok t ∧ bytes.length < slotPlaces everyKey t.slot := by
  intro halves pairs bytes
  have crowded : (decode bytes).toOption.any
      (fun t => bytes.length < slotPlaces everyKey t.slot) = true := by decide +kernel
  cases read : decode bytes with
  | error e =>
    rw [read] at crowded
    cases crowded
  | ok t =>
    rw [read] at crowded
    exact ⟨t, rfl, of_decide_eq_true crowded⟩

end Codec
end Immediate
