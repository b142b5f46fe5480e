import Immediate.Ty.Basic
/-! The names types go by. Every kind goes by its own name, some by a short one besides, and a
host may register more. -/
namespace Immediate

/-- Names with the kinds they stand for; the first entry of a name counts. -/
structure Registry where
  bindings : List (String × Kind)

namespace Registry

/-- Every kind under its own name, and three short names. -/
def standard : Registry :=
  ⟨[("uuid", .entity), ("pos", .position), ("str", .string)] ++
    Kind.all.map fun kind => (kind.name, kind)⟩

/-- Lets a name stand for a kind, whatever it stood for before. -/
def register (r : Registry) (name : String) (kind : Kind) : Registry :=
  ⟨(name, kind) :: r.bindings⟩

/-- The kind a name stands for. -/
def kind? (r : Registry) (name : String) : Option Kind := r.bindings.lookup name

/-- Every registered name once, in the order of their characters. -/
def names (r : Registry) : List String :=
  (r.bindings.map (·.1)).eraseDups.mergeSort fun a b => !(b < a)

end Registry
end Immediate
