import Immediate.Codec.Layout
/-! Writing typed values as bytes. -/
namespace Immediate.Codec

mutual

/-- The bytes of a type. -/
def encodeTy : Ty → List UInt8
  | .scalar s => [(Kind.scalar s).id]
  | .list element => Kind.list.id :: encodeChildTy element
  | .iterator element => Kind.iterator.id :: encodeChildTy element
  | .map key value => Kind.map.id :: (encodeChildTy key ++ encodeChildTy value)
  | .entry key value => Kind.entry.id :: (encodeChildTy key ++ encodeChildTy value)

/-- The bytes of a child slot of a type. -/
def encodeChildTy : Option Ty → List UInt8
  | none => [unsetChild]
  | some t => encodeTy t

end

/-- The bytes of a length, which must fit four of them. -/
def encodeLength (length : Nat) : Except CodecError (List UInt8) :=
  if length < Nat.pow 2 32 then .ok (bigEndian 4 length) else .error (.tooLarge length)

/-- The bytes that tell the type of a container's contents where the declared type does not. -/
def inlineTy (declared own : Option Ty) : List UInt8 :=
  match declared with
  | some _ => []
  | none => encodeChildTy own

/-- Puts bytes in front of those that follow, if these can be written. -/
def after (front : List UInt8) (rest : Except CodecError (List UInt8)) :
    Except CodecError (List UInt8) :=
  (front ++ ·) <$> rest

/-- The bytes of two things one after the other. -/
def both (first second : Except CodecError (List UInt8)) : Except CodecError (List UInt8) := do
  return (← first) ++ (← second)

mutual

/-- The bytes of a value under a type of its kind. -/
def encodePayload (ty : Ty) : Value → Except CodecError (List UInt8)
  | .integer width n =>
    if ty = .scalar (.integer width) then .ok (bigEndian (width.bits / 8) n.toNat)
    else .error (.wrongKind ty (.scalar (.integer width)))
  | .float x =>
    if ty = .float then .ok (bigEndian 4 x.bits.toNat) else .error (.wrongKind ty .float)
  | .double x =>
    if ty = .double then .ok (bigEndian 8 x.bits.toNat) else .error (.wrongKind ty .double)
  | .string s =>
    if ty = .string then
      both (encodeLength s.utf8ByteSize) (.ok s.toUTF8.toList)
    else .error (.wrongKind ty .string)
  | .entity e =>
    if ty = .entity then .ok (bigEndian 16 e.bits.toNat) else .error (.wrongKind ty .entity)
  | .position p =>
    if ty = .position then
      .ok (bigEndian 8 p.x.bits.toNat ++ bigEndian 8 p.y.bits.toNat ++ bigEndian 8 p.z.bits.toNat)
    else .error (.wrongKind ty .position)
  | .list own items =>
    match ty with
    | .list declared =>
      after (inlineTy declared own)
        (both (encodeLength items.length) (encodeItems (declared.or own) items))
    | _ => .error (.wrongKind ty .list)
  | .iterator own items =>
    match ty with
    | .iterator declared =>
      after (inlineTy declared own)
        (both (encodeLength items.length) (encodeItems (declared.or own) items))
    | _ => .error (.wrongKind ty .iterator)
  | .map ownKey ownValue pairs =>
    match ty with
    | .map declaredKey declaredValue =>
      after (inlineTy declaredKey ownKey ++ inlineTy declaredValue ownValue)
        (both (encodeLength pairs.length)
          (encodePairs (declaredKey.or ownKey) (declaredValue.or ownValue) pairs))
    | _ => .error (.wrongKind ty .map)
  | .entry ownKey ownValue key value =>
    match ty with
    | .entry declaredKey declaredValue =>
      after (inlineTy declaredKey ownKey ++ inlineTy declaredValue ownValue)
        (both (encodeSlot (declaredKey.or ownKey) key)
          (encodeSlot (declaredValue.or ownValue) value))
    | _ => .error (.wrongKind ty .entry)

/-- The bytes of a slot. A value whose type is not known carries it in front. -/
def encodeSlot (known : Option Ty) : Option Value → Except CodecError (List UInt8)
  | none => .ok [absent]
  | some v =>
    match known with
    | some t => after [present] (encodePayload t v)
    | none => after (present :: encodeTy v.ty) (encodePayload v.ty v)

/-- The bytes of a sequence's slots. -/
def encodeItems (known : Option Ty) : List (Option Value) → Except CodecError (List UInt8)
  | [] => .ok []
  | item :: rest => both (encodeSlot known item) (encodeItems known rest)

/-- The bytes of a map's pairs. Keys are never empty and have no presence byte. -/
def encodePairs (knownKey knownValue : Option Ty) :
    List (Value × Option Value) → Except CodecError (List UInt8)
  | [] => .ok []
  | (key, value) :: rest =>
    both
      (both
        (match knownKey with
        | some t => encodePayload t key
        | none => after (encodeTy key.ty) (encodePayload key.ty key))
        (encodeSlot knownValue value))
      (encodePairs knownKey knownValue rest)

end

/-- The bytes of a typed value: its type, then its slot. -/
def encode (t : TypedValue) : Except CodecError (List UInt8) :=
  after (encodeTy t.ty) (encodeSlot (some t.ty) t.slot)

end Immediate.Codec
