import Immediate.Number.Written
/-! Positions in the host's world: three coordinates. -/
namespace Immediate

/-- A position. -/
structure Position where
  x : Binary64
  y : Binary64
  z : Binary64
  deriving DecidableEq, Repr

namespace Position

/-- The position whose coordinates are all zero. -/
def origin : Position := ⟨.zero, .zero, .zero⟩

/-- The position moved by another, coordinate by coordinate. -/
def offset (p q : Position) : Position := ⟨p.x.add q.x, p.y.add q.y, p.z.add q.z⟩

/-- The position with the sign of every coordinate changed. -/
def negate (p : Position) : Position := ⟨p.x.negate, p.y.negate, p.z.negate⟩

/-- The written form. -/
def text (p : Position) : String := s!"({p.x.text}, {p.y.text}, {p.z.text})"

end Position
end Immediate
