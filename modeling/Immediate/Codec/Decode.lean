import Immediate.Codec.Layout
/-! Reading typed values from bytes. Every reader takes at least one byte for each type, slot and
payload it returns, so the number of bytes bounds the depth of the recursion. -/
namespace Immediate.Codec

/-- The bytes not yet read, and how many were read before them. -/
structure Input where
  rest : List UInt8
  offset : Nat

/-- A computation that reads bytes. -/
abbrev Reader := StateT Input (Except CodecError)

/-- How many bytes have been read. -/
def position : Reader Nat := return (← get).offset

/-- Reads a number of bytes, all or none. -/
def take (count : Nat) : Reader (List UInt8) := do
  let input ← get
  let bytes := input.rest.take count
  if bytes.length < count then throw (.unexpectedEnd input.offset)
  set (Input.mk (input.rest.drop count) (input.offset + count))
  return bytes

/-- Reads one byte. -/
def readByte : Reader UInt8 := do
  let input ← get
  match input.rest with
  | [] => throw (.unexpectedEnd input.offset)
  | byte :: rest =>
    set (Input.mk rest (input.offset + 1))
    return byte

/-- Reads a number of a width in bytes. -/
def readNat (width : Nat) : Reader Nat := ofBigEndian <$> take width

/-- Fails for want of bytes. -/
def outOfBytes {α : Type} : Reader α := do throw (.unexpectedEnd (← position))

/-- Reads a child slot of a type. The fuel bounds how deep types nest. -/
def readChildTy : Nat → Reader (Option Ty)
  | 0 => outOfBytes
  | fuel + 1 => do
    let offset ← position
    let id ← readByte
    if id = unsetChild then return none
    match Kind.ofId? id with
    | none => throw (.unknownKind id offset)
    | some (.scalar s) => return some (.scalar s)
    | some .list => return some (.list (← readChildTy fuel))
    | some .iterator => return some (.iterator (← readChildTy fuel))
    | some .map => return some (.map (← readChildTy fuel) (← readChildTy fuel))
    | some .entry => return some (.entry (← readChildTy fuel) (← readChildTy fuel))

/-- Reads a type where there must be one. -/
def readTy (fuel : Nat) : Reader Ty := do
  match ← readChildTy fuel with
  | some t => return t
  | none => throw .missingType

/-- The type of a container's contents: the declared one, or that which stands before them. -/
def readInlineTy (fuel : Nat) (declared : Option Ty) : Reader (Option Ty) :=
  match declared with
  | some t => return some t
  | none => readChildTy fuel

/-- Reads a payload of a scalar kind. -/
def readScalar : Scalar → Reader Value
  | .integer width => return .integer width (BitVec.ofNat _ (← readNat (width.bits / 8)))
  | .float => return .float ⟨(← readNat 4).toUInt32⟩
  | .double => return .double ⟨(← readNat 8).toUInt64⟩
  | .string => do
    let length ← readNat 4
    let offset ← position
    let bytes ← take length
    match String.fromUTF8? ⟨bytes.toArray⟩ with
    | some s => return .string s
    | none => throw (.invalidText offset)
  | .entity => return .entity ⟨BitVec.ofNat _ (← readNat 16)⟩
  | .position => do
    let x ← readNat 8
    let y ← readNat 8
    let z ← readNat 8
    return .position ⟨⟨x.toUInt64⟩, ⟨y.toUInt64⟩, ⟨z.toUInt64⟩⟩

mutual

/-- Reads a payload of a type. -/
def readPayload : Nat → Ty → Reader Value
  | 0, _ => outOfBytes
  | _ + 1, .scalar s => readScalar s
  | fuel + 1, .list declared => do
    let element ← readInlineTy fuel declared
    return .list element (← readItems fuel element (← readNat 4))
  | fuel + 1, .iterator declared => do
    let element ← readInlineTy fuel declared
    return .iterator element (← readItems fuel element (← readNat 4))
  | fuel + 1, .map declaredKey declaredValue => do
    let keyTy ← readInlineTy fuel declaredKey
    let valueTy ← readInlineTy fuel declaredValue
    let pairs ← readPairs fuel keyTy valueTy (← readNat 4)
    return .map keyTy valueTy (Value.insertAll [] pairs)
  | fuel + 1, .entry declaredKey declaredValue => do
    let keyTy ← readInlineTy fuel declaredKey
    let valueTy ← readInlineTy fuel declaredValue
    let key ← readSlot fuel keyTy
    let value ← readSlot fuel valueTy
    return .entry keyTy valueTy key value

/-- Reads a value, and its type first when that is not known. -/
def readValue : Nat → Option Ty → Reader Value
  | 0, _ => outOfBytes
  | fuel + 1, some t => readPayload fuel t
  | fuel + 1, none => do readPayload fuel (← readTy fuel)

/-- Reads a slot. -/
def readSlot : Nat → Option Ty → Reader Slot
  | 0, _ => outOfBytes
  | fuel + 1, known => do
    let offset ← position
    let marker ← readByte
    if marker = absent then return none
    else if marker = present then return some (← readValue fuel known)
    else throw (.invalidPresence marker offset)

/-- Reads a number of slots. -/
def readItems : Nat → Option Ty → Nat → Reader (List Slot)
  | _, _, 0 => return []
  | 0, _, _ + 1 => outOfBytes
  | fuel + 1, known, count + 1 => do
    let item ← readSlot fuel known
    let rest ← readItems fuel known count
    return item :: rest

/-- Reads a number of pairs. -/
def readPairs : Nat → Option Ty → Option Ty → Nat → Reader (List (Value × Slot))
  | _, _, _, 0 => return []
  | 0, _, _, _ + 1 => outOfBytes
  | fuel + 1, knownKey, knownValue, count + 1 => do
    let key ← readValue fuel knownKey
    let value ← readSlot fuel knownValue
    let rest ← readPairs fuel knownKey knownValue count
    return (key, value) :: rest

end

/-- The typed value that bytes spell: a type, a slot of it, and nothing more. Reading goes through
at most three readers for each byte. -/
def decode (bytes : List UInt8) : Except CodecError TypedValue := do
  let fuel := 3 * bytes.length + 3
  let ((ty, slot), input) ← (do
    let ty ← readTy fuel
    let slot ← readSlot fuel (some ty)
    return (ty, slot) : Reader (Ty × Slot)).run ⟨bytes, 0⟩
  if input.rest.isEmpty then return ⟨ty, slot⟩ else throw (.trailing input.rest.length)

end Immediate.Codec
