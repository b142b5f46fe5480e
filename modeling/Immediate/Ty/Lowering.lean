import Immediate.Ty.Basic
/-! Lowering: a type names at most one type its values may stand in for. Following these names
gives a chain, and two types are joined at the first place where their chains meet. Operators,
comparisons and list literals bring their operands to such a joint type. -/
namespace Immediate.Ty

/-- The next type on the chain. Numbers widen, a list of 16-bit units is text, other lists and
maps count their contents, an iterator is what it walks over, and an entity is its number. -/
def lowered? : Ty → Option Ty
  | .byte => some .short
  | .short => some .int
  | .int => some .long
  | .long => some .float
  | .float => some .double
  | .list (some .short) => some .string
  | .list _ | .map .. => some .int
  | .iterator (some (.entry key value)) => some (.map key value)
  | .iterator element => some (.list element)
  | .entity => some .long
  | .double | .string | .position | .entry .. => none

/-- An upper bound on how often a type can be lowered. -/
def height : Ty → Nat
  | .byte => 5
  | .short => 4
  | .int => 3
  | .long => 2
  | .float => 1
  | .double | .string | .position | .entry .. => 0
  | .entity => 3
  | .list _ | .map .. => 4
  | .iterator _ => 5

theorem height_lowered {t u : Ty} (h : t.lowered? = some u) : u.height < t.height := by
  unfold lowered? at h
  split at h <;> simp only [Option.some.injEq, reduceCtorEq] at h <;> subst h <;>
    simp only [height] <;> omega

/-- The types reached by lowering at most a number of times. -/
def chainUpTo : Nat → Ty → List Ty
  | 0, t => [t]
  | steps + 1, t =>
    match t.lowered? with
    | some u => t :: chainUpTo steps u
    | none => [t]

/-- A type followed by every type it lowers to. -/
def chain (t : Ty) : List Ty := chainUpTo t.height t

/-- The first type on one chain that is on the other too. -/
def join? (a b : Ty) : Option Ty := a.chain.find? b.chain.contains

/-- The first type from the joint of two types on whose values support some operators. -/
def operable? (a b : Ty) (required : List Capability) : Option Ty :=
  (join? a b).bind fun t => t.chain.find? (·.supports required)

end Immediate.Ty
