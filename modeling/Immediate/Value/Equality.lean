import Immediate.Value.Basic
/-! Sameness of values, by which maps find their keys. It looks at contents alone: declared child
types never matter, floating-point numbers are the same when their patterns are, and maps may
hold the same pairs in different orders. -/
namespace Immediate.Value

mutual

/-- Whether two values have the same kind and the same contents. -/
def same : Value → Value → Bool
  | .integer w m, .integer v n => w = v && m.toNat = n.toNat
  | .float x, .float y => x = y
  | .double x, .double y => x = y
  | .string s, .string t => s = t
  | .entity e, .entity f => e = f
  | .position p, .position q => p = q
  | .list _ a, .list _ b => sameItems a b
  | .iterator _ a, .iterator _ b => sameItems a b
  | .map _ _ a, .map _ _ b => a.length = b.length && pairsWithin a b
  | .entry _ _ key value, .entry _ _ key' value' => sameSlot key key' && sameSlot value value'
  | _, _ => false
termination_by structural v => v

/-- Whether two slots are both empty or hold the same value. -/
def sameSlot : Option Value → Option Value → Bool
  | none, none => true
  | some v, some w => same v w
  | _, _ => false
termination_by structural slot => slot

/-- Whether two sequences hold the same, slot by slot. -/
def sameItems : List (Option Value) → List (Option Value) → Bool
  | [], [] => true
  | v :: vs, w :: ws => sameSlot v w && sameItems vs ws
  | _, _ => false
termination_by structural items => items

/-- Whether every pair of a map is found in another: under its key stands the same slot. -/
def pairsWithin : List (Value × Option Value) → List (Value × Option Value) → Bool
  | [], _ => true
  | (key, value) :: rest, pairs =>
    (match pairs.find? fun pair => same key pair.1 with
    | some pair => sameSlot value pair.2
    | none => false) && pairsWithin rest pairs
termination_by structural pairs => pairs

end

/-- What stands under a key, if the key is present. -/
def lookup (pairs : List (Value × Slot)) (key : Value) : Option Slot :=
  (pairs.find? fun pair => same key pair.1).map (·.2)

/-- The pairs with a key set. A key that is present keeps its first spelling and its place;
another one goes to the end. -/
def insert : List (Value × Slot) → Value → Slot → List (Value × Slot)
  | [], key, value => [(key, value)]
  | pair :: rest, key, value =>
    if same key pair.1 then (pair.1, value) :: rest else pair :: insert rest key value

/-- The pairs without a key. -/
def erase : List (Value × Slot) → Value → List (Value × Slot)
  | [], _ => []
  | pair :: rest, key => if same key pair.1 then rest else pair :: erase rest key

/-- The pairs that insertion one after another leaves. -/
def insertAll (pairs more : List (Value × Slot)) : List (Value × Slot) :=
  more.foldl (fun pairs (key, value) => insert pairs key value) pairs

end Immediate.Value
