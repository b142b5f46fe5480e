import Immediate.Codec.Decode
import Immediate.Codec.Encode
/-! A reader takes its own bytes and leaves the others alone. The relation says so for every
continuation of the input at once, so that readers in sequence read the bytes one after another;
the primitive readers and the reader of types satisfy it. -/
namespace Immediate.Codec

/-- A reader takes exactly these bytes and returns this result, whatever comes after them and
however many were read before. -/
def Reads {α : Type} (reader : Reader α) (bytes : List UInt8) (result : α) : Prop :=
  ∀ rest offset, reader.run ⟨bytes ++ rest, offset⟩ =
    .ok (result, ⟨rest, offset + bytes.length⟩)

namespace Reads

variable {α β : Type} {reader : Reader α} {next : α → Reader β} {bytes more : List UInt8}
  {a : α} {b : β}

theorem pure (a : α) : Reads (Pure.pure a) [] a := fun _ _ => rfl

theorem bind (first : Reads reader bytes a) (second : Reads (next a) more b) :
    Reads (reader >>= next) (bytes ++ more) b := by
  intro rest offset
  rw [List.append_assoc, StateT.run_bind, first (more ++ rest) offset]
  change (next a).run ⟨more ++ rest, offset + bytes.length⟩ = _
  rw [second rest, List.length_append, Nat.add_assoc]

/-- A last step that reads nothing. -/
theorem bind_last (first : Reads reader bytes a) (last : Reads (next a) [] b) :
    Reads (reader >>= next) bytes b := by
  have joined := first.bind last
  rw [List.append_nil] at joined
  exact joined

theorem bind_pure {f : α → β} (first : Reads reader bytes a) :
    Reads (reader >>= fun x => Pure.pure (f x)) bytes (f a) := first.bind_last (pure (f a))

theorem map {f : α → β} (first : Reads reader bytes a) : Reads (f <$> reader) bytes (f a) := by
  rw [map_eq_pure_bind]
  exact first.bind_pure

/-- Asking for the position reads nothing; what follows may use it only for its errors. -/
theorem position_bind {next : Nat → Reader β} (second : ∀ offset, Reads (next offset) bytes b) :
    Reads (position >>= next) bytes b := fun rest offset => second offset rest offset

end Reads

theorem reads_readByte (byte : UInt8) : Reads readByte [byte] byte := fun _ _ => rfl

/-- Taking a number of bytes gives all of them, or fails where it stands. -/
theorem run_take (count : Nat) (input : Input) :
    (take count).run input =
      if (input.rest.take count).length < count then .error (.unexpectedEnd input.offset)
      else .ok (input.rest.take count, ⟨input.rest.drop count, input.offset + count⟩) := by
  by_cases short : (input.rest.take count).length < count
  · rw [if_pos short]
    change (if (input.rest.take count).length < count then _ else _ : Reader _).run input = _
    rw [if_pos short]
    rfl
  · rw [if_neg short]
    change (if (input.rest.take count).length < count then _ else _ : Reader _).run input = _
    rw [if_neg short]
    rfl

theorem reads_take (bytes : List UInt8) : Reads (take bytes.length) bytes bytes := by
  intro rest offset
  have taken : (bytes ++ rest).take bytes.length = bytes := List.take_left
  have dropped : (bytes ++ rest).drop bytes.length = rest := List.drop_left
  rw [run_take, taken, dropped, if_neg (Nat.lt_irrefl _)]

/-! ### Numbers -/

@[simp] theorem length_bigEndian (width n : Nat) : (bigEndian width n).length = width := by
  induction width generalizing n with
  | zero => rfl
  | succ width ih => simp only [bigEndian, List.length_append, ih, List.length_singleton]

/-- A number is read back from as many bytes as it needs. -/
theorem ofBigEndian_bigEndian {width n : Nat} (fits : n < Nat.pow 256 width) :
    ofBigEndian (bigEndian width n) = n := by
  induction width generalizing n with
  | zero =>
    have : n = 0 := by simpa using fits
    subst this
    rfl
  | succ width ih =>
    have high : n / 256 < Nat.pow 256 width := by
      have widened : Nat.pow 256 (width + 1) = 256 * Nat.pow 256 width := Nat.pow_succ'
      exact Nat.div_lt_of_lt_mul (by omega)
    have low : n.toUInt8.toNat = n % 256 := by simp
    have split := ih high
    simp only [ofBigEndian] at split
    simp only [ofBigEndian, bigEndian, List.foldl_append, split, List.foldl_cons, List.foldl_nil, low]
    omega

theorem reads_readNat {width n : Nat} (fits : n < Nat.pow 256 width) :
    Reads (readNat width) (bigEndian width n) n := by
  have taken : Reads (ofBigEndian <$> take (bigEndian width n).length) (bigEndian width n)
      (ofBigEndian (bigEndian width n)) := (reads_take (bigEndian width n)).map
  rw [length_bigEndian, ofBigEndian_bigEndian fits] at taken
  exact taken

/-- A length that could be written is read back. -/
theorem reads_length {length : Nat} {bytes : List UInt8}
    (written : encodeLength length = .ok bytes) : Reads (readNat 4) bytes length := by
  unfold encodeLength at written
  split at written
  · rename_i fits
    cases written
    exact reads_readNat fits
  · cases written

/-! ### Types -/

/-- The byte of a kind stands for that kind alone, and for no unset child. -/
theorem ofId?_id (kind : Kind) : Kind.ofId? kind.id = some kind ∧ kind.id ≠ unsetChild := by
  cases kind with
  | scalar s =>
    cases s with
    | integer width => cases width <;> exact ⟨by decide, by decide⟩
    | _ => exact ⟨by decide, by decide⟩
  | _ => exact ⟨by decide, by decide⟩

/-- The reader of what follows the byte of a kind. -/
def readChildrenOf (fuel : Nat) : Kind → Reader (Option Ty)
  | .scalar s => return some (.scalar s)
  | .list => return some (.list (← readChildTy fuel))
  | .iterator => return some (.iterator (← readChildTy fuel))
  | .map => return some (.map (← readChildTy fuel) (← readChildTy fuel))
  | .entry => return some (.entry (← readChildTy fuel) (← readChildTy fuel))

private theorem reads_kind {fuel : Nat} {kind : Kind} {bytes : List UInt8} {result : Option Ty}
    (children : Reads (readChildrenOf fuel kind) bytes result) :
    Reads (readChildTy (fuel + 1)) (kind.id :: bytes) result := by
  unfold readChildTy
  refine Reads.position_bind fun offset => ?_
  refine (reads_readByte kind.id).bind ?_
  obtain ⟨known, set⟩ := ofId?_id kind
  rw [if_neg set, known]
  cases kind <;> exact children

mutual

/-- A type is read back by a reader that may go as deep as the type has bytes. -/
theorem reads_ty : ∀ (t : Ty) {fuel : Nat}, (encodeTy t).length ≤ fuel →
    Reads (readChildTy fuel) (encodeTy t) (some t)
  | .scalar _, _ + 1, _ => reads_kind (Reads.pure _)
  | .list element, fuel + 1, enough =>
    reads_kind (reads_childTy element (Nat.le_of_succ_le_succ enough)).bind_pure
  | .iterator element, fuel + 1, enough =>
    reads_kind (reads_childTy element (Nat.le_of_succ_le_succ enough)).bind_pure
  | .map key value, fuel + 1, enough => by
    simp only [encodeTy, List.length_cons, List.length_append] at enough
    exact reads_kind ((reads_childTy key (by omega)).bind
      (reads_childTy value (by omega)).bind_pure)
  | .entry key value, fuel + 1, enough => by
    simp only [encodeTy, List.length_cons, List.length_append] at enough
    exact reads_kind ((reads_childTy key (by omega)).bind
      (reads_childTy value (by omega)).bind_pure)

/-- The same for a child slot, which may be unset. -/
theorem reads_childTy : ∀ (slot : Option Ty) {fuel : Nat}, (encodeChildTy slot).length ≤ fuel →
    Reads (readChildTy fuel) (encodeChildTy slot) slot
  | none, _ + 1, _ => fun _ _ => rfl
  | some t, _, enough => reads_ty t enough

end

end Immediate.Codec
