import Immediate.TypedValue
/-! The binary form of typed values: which bytes stand for what, and what can be wrong with them.

A type is the byte of its kind followed by its children, and `FF` stands for an unset child. A
slot is `00` when empty, or `01` and a payload. A payload is a number in big-endian order, a
length and UTF-8 bytes, or the contents of a container. Where a declared type leaves a child
unset, the container's own child type stands before its contents, and where that is unset too,
each content carries its own type. So a reader needs nothing but the bytes. -/
namespace Immediate.Codec

/-- Why a typed value cannot be written or bytes cannot be read. -/
inductive CodecError where
  | unexpectedEnd (offset : Nat)
  | unknownKind (id : UInt8) (offset : Nat)
  | missingType
  | invalidPresence (marker : UInt8) (offset : Nat)
  | invalidText (offset : Nat)
  | trailing (count : Nat)
  | wrongKind (declared : Ty) (found : Kind)
  | tooLarge (length : Nat)

/-- The text of an error. -/
def CodecError.message : CodecError → String
  | .unexpectedEnd offset => s!"unexpected end of input at byte {offset}"
  | .unknownKind id offset => s!"unknown template id {id} at byte {offset}"
  | .missingType => "top-level type is missing"
  | .invalidPresence marker offset => s!"invalid presence marker {marker} at byte {offset}"
  | .invalidText offset => s!"invalid UTF-8 in string at byte {offset}"
  | .trailing count => s!"{count} trailing bytes after value"
  | .wrongKind declared found =>
    "value of kind " ++ found.name ++ " does not match declared type " ++ declared.text
  | .tooLarge length => s!"container too large to encode: {length} elements"

/-- The byte of an unset child type. -/
def unsetChild : UInt8 := 0xFF

/-- The byte of an empty slot. -/
def absent : UInt8 := 0

/-- The byte before the value in a slot. -/
def present : UInt8 := 1

/-- The bytes of a number in big-endian order, at a given width in bytes. -/
def bigEndian : Nat → Nat → List UInt8
  | 0, _ => []
  | width + 1, n => bigEndian width (n / 256) ++ [n.toUInt8]

/-- The number bytes spell in big-endian order. -/
def ofBigEndian (bytes : List UInt8) : Nat :=
  bytes.foldl (fun total byte => total * 256 + byte.toNat) 0

/-- The hexadecimal digits of bytes, two for each. -/
def hexadecimal (bytes : List UInt8) : String :=
  String.ofList (bytes.flatMap fun byte => EntityId.hexadecimal 2 byte.toNat)

end Immediate.Codec
