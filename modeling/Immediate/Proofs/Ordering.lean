import Immediate.Eval.Comparison
import Immediate.Proofs.LeastCommon
import Immediate.Proofs.Typing
/-! The six comparisons of two values. What is ordered at all, floating-point numbers aside, is compared
as integers, texts or numbers of entities, and there one ordering of the two values answers all six
comparisons, from both sides. Equality takes another way to its answer than order, and comes to the same
one. -/
namespace Immediate

open Outcome

namespace CompareOp

/-- The comparison that holds of two operands when this one holds of them the other way round. -/
def mirror : CompareOp → CompareOp
  | .eq => .eq
  | .ne => .ne
  | .lt => .gt
  | .le => .ge
  | .gt => .lt
  | .ge => .le

theorem holds_mirror (op : CompareOp) (o : Ordering) : op.mirror.holds o.swap = op.holds o := by
  cases op <;> cases o <;> rfl

end CompareOp

namespace Value

/-- That an ordering of two values answers every comparison of them. -/
def OrderedBy (o : Ordering) (left right : Value) : Prop :=
  ∀ op, compareSlots op (some left) (some right) = .ok (op.holds o)

/-- What equality and order find is what every comparison answers by. -/
theorem orderedBy_of_found {left right : Value} {o : Ordering}
    (equality : equal left right = .ok (o = .eq)) (ordered : order left right = .ok (some o)) :
    OrderedBy o left right := by
  intro op
  rw [compareSlots, equality, ordered]
  cases op <;> cases o <;> rfl

/-! ### Where values meet -/

theorem eq_of_kind {t : Ty} {s : Scalar} (kind : t.kind = .scalar s) : t = .scalar s := by
  cases t with
  | scalar => exact congrArg Ty.scalar (Kind.scalar.inj kind)
  | list | iterator | map | entry => cases kind

/-- The numbers that do not float are integers. -/
theorem exists_width {t : Ty} (numeric : t.kind.isNumeric = true) (single : t ≠ .float)
    (double : t ≠ .double) : ∃ width, t = .scalar (.integer width) := by
  cases t with
  | scalar s =>
    cases s with
    | integer width => exact ⟨width, rfl⟩
    | float => exact absurd rfl single
    | double => exact absurd rfl double
    | string | entity | position => cases numeric
  | list | iterator | map | entry => cases numeric

theorem exists_of_isInteger {v : Value} (integer : v.kind.isInteger) : ∃ w n, v = .integer w n := by
  cases v with
  | integer w n => exact ⟨w, n, rfl⟩
  | _ => cases integer

theorem exists_of_integer {v : Value} {width : Width} (kind : v.kind = .scalar (.integer width)) :
    ∃ n, v = .integer width n := by
  cases v with
  | integer => cases kind; exact ⟨_, rfl⟩
  | _ => cases kind

section Met
variable {left right : Value}

theorem orderedBy_of_integers {width : Width} {x y : BitVec width.bits}
    (joined : Ty.join? left.ty right.ty = some (.scalar (.integer width)))
    (castLeft : cast (.scalar (.integer width)) left = .ok (.integer width x))
    (castRight : cast (.scalar (.integer width)) right = .ok (.integer width y)) :
    OrderedBy (compare x.toInt y.toInt) left right := by
  refine orderedBy_of_found ?_ ?_
  · simp only [equal, joined, castLeft, castRight, ok_bind]
    exact congrArg Except.ok (decide_eq_decide.mpr Option.some_inj)
  · simp only [order, joined, castLeft, castRight, ok_bind]
    rfl

theorem orderedBy_of_texts {s t : String} (joined : Ty.join? left.ty right.ty = some .string)
    (castLeft : cast .string left = .ok (.string s))
    (castRight : cast .string right = .ok (.string t)) : OrderedBy (compare s t) left right := by
  refine orderedBy_of_found ?_ ?_
  · simp only [equal, joined, castLeft, castRight, ok_bind]
    exact congrArg Except.ok (decide_eq_decide.mpr Std.compare_eq_iff_eq.symm)
  · simp only [order, joined, castLeft, castRight, ok_bind]
    rfl

theorem orderedBy_of_entities {e f : EntityId} (joined : Ty.join? left.ty right.ty = some .entity)
    (castLeft : cast .entity left = .ok (.entity e))
    (castRight : cast .entity right = .ok (.entity f)) :
    OrderedBy (compare e.bits.toNat f.bits.toNat) left right := by
  refine orderedBy_of_found ?_ ?_
  · simp only [equal, joined, castLeft, castRight, ok_bind]
    have named : compare e.bits.toNat f.bits.toNat = .eq ↔ e = f :=
      calc compare e.bits.toNat f.bits.toNat = .eq
        _ ↔ e.bits.toNat = f.bits.toNat := Nat.compare_eq_eq
        _ ↔ e.bits = f.bits := BitVec.toNat_inj
        _ ↔ e = f := ⟨congrArg EntityId.mk, congrArg EntityId.bits⟩
    exact congrArg Except.ok (decide_eq_decide.mpr named.symm)
  · simp only [order, joined, castLeft, castRight, ok_bind]
    rfl

/-- An order of two values comes from integers, texts or entities that they are cast to, unless they are
floating-point numbers. The other way round it is the opposite one. -/
theorem exists_orderedBy {t : Ty} (joined : Ty.join? left.ty right.ty = some t)
    (single : t ≠ .float) (double : t ≠ .double)
    (answered : ∃ held, compareSlots .lt (some left) (some right) = .ok held) :
    ∃ o : Ordering, OrderedBy o left right ∧ OrderedBy o.swap right left := by
  obtain ⟨held, answered⟩ := answered
  obtain ⟨found, ordered, -⟩ := bind_eq_ok.mp answered
  have mirrored := (Ty.join?_comm right.ty left.ty).trans joined
  simp only [order, joined, bind_eq_ok] at ordered
  obtain ⟨l, castLeft, r, castRight, ordered⟩ := ordered
  have leftKind := kind_of_fits (fits_of_cast castLeft)
  have rightKind := kind_of_fits (fits_of_cast castRight)
  split at ordered
  · rename_i s u
    obtain rfl := eq_of_kind leftKind.symm
    refine ⟨compare s u, orderedBy_of_texts joined castLeft castRight, ?_⟩
    rw [← Std.OrientedCmp.eq_swap]
    exact orderedBy_of_texts mirrored castRight castLeft
  · rename_i e f
    obtain rfl := eq_of_kind leftKind.symm
    refine ⟨compare e.bits.toNat f.bits.toNat, orderedBy_of_entities joined castLeft castRight, ?_⟩
    rw [← Std.OrientedCmp.eq_swap]
    exact orderedBy_of_entities mirrored castRight castLeft
  · split at ordered
    · rename_i numeric
      obtain ⟨width, rfl⟩ := exists_width numeric single double
      obtain ⟨x, rfl⟩ := exists_of_integer leftKind
      obtain ⟨y, rfl⟩ := exists_of_integer rightKind
      refine ⟨compare x.toInt y.toInt, orderedBy_of_integers joined castLeft castRight, ?_⟩
      rw [← Std.OrientedCmp.eq_swap]
      exact orderedBy_of_integers mirrored castRight castLeft
    · cases ordered

end Met

/-! ### The laws -/

/-- Six answers that agree with one another, and with those for the operands the other way round. -/
structure Coherent (left right : Value) (held : CompareOp → Bool) : Prop where
  answers : ∀ op, compareSlots op (some left) (some right) = .ok (held op)
  mirrored : ∀ op, compareSlots op.mirror (some right) (some left) = .ok (held op)
  one : [held .lt, held .eq, held .gt].count true = 1
  le : held .le = !held .gt
  ge : held .ge = !held .lt
  ne : held .ne = !held .eq

theorem coherent_of_orderedBy {left right : Value} {o : Ordering} (first : OrderedBy o left right)
    (second : OrderedBy o.swap right left) : Coherent left right (·.holds o) where
  answers := first
  mirrored op := by rw [second op.mirror, CompareOp.holds_mirror]
  one := by cases o <;> rfl
  le := by cases o <;> rfl
  ge := by cases o <;> rfl
  ne := by cases o <;> rfl

/-- Two integers of any widths meet at the wider one, where both keep their numbers. -/
theorem orderedBy_integers (v w : Width) (m : BitVec v.bits) (n : BitVec w.bits) :
    OrderedBy (compare m.toInt n.toInt) (.integer v m) (.integer w n) := by
  obtain ⟨u, joined, first, second⟩ : ∃ u : Width,
      Ty.join? (.scalar (.integer v)) (.scalar (.integer w)) = some (.scalar (.integer u)) ∧
        v.bits ≤ u.bits ∧ w.bits ≤ u.bits := by
    cases v <;> cases w <;> exact ⟨_, rfl, by decide, by decide⟩
  have kept {w : Width} (n : BitVec w.bits) (wider : w.bits ≤ u.bits) :
      (BitVec.ofInt u.bits n.toInt).toInt = n.toInt := BitVec.toInt_signExtend_of_le wider
  rw [← kept m first, ← kept n second]
  exact @orderedBy_of_integers (.integer v m) (.integer w n) u _ _ joined rfl rfl

theorem lt_of_orderedBy {left right : Value} {o : Ordering} (ordered : OrderedBy o left right)
    (less : compareSlots .lt (some left) (some right) = .ok true) : o = .lt :=
  of_decide_eq_true (Except.ok.inj ((ordered .lt).symm.trans less))

/-- The laws of comparison. Values that meet at a type other than the floating-point ones and have an
order have six coherent answers. Integers of all widths together are ordered as the numbers they are,
texts by a total order and entities by their numbers. -/
theorem coherent_comparisons :
    (∀ {left right : Value} {t : Ty}, Ty.join? left.ty right.ty = some t → t ≠ .float → t ≠ .double →
      (∃ held, compareSlots .lt (some left) (some right) = .ok held) →
        ∃ held, Coherent left right held) ∧
    (∀ (v w : Width) (m : BitVec v.bits) (n : BitVec w.bits),
      OrderedBy (compare m.toInt n.toInt) (.integer v m) (.integer w n)) ∧
    (∀ {first second third : Value}, first.kind.isInteger → second.kind.isInteger →
      third.kind.isInteger → compareSlots .lt (some first) (some second) = .ok true →
        compareSlots .lt (some second) (some third) = .ok true →
          compareSlots .lt (some first) (some third) = .ok true) ∧
    (Std.TransOrd String ∧ Std.LawfulEqOrd String ∧
      ∀ s t : String, OrderedBy (compare s t) (.string s) (.string t)) ∧
    ∀ e f : EntityId, OrderedBy (compare e.bits.toNat f.bits.toNat) (.entity e) (.entity f) := by
  refine ⟨?laws, orderedBy_integers, ?transitive, ⟨inferInstance, inferInstance, ?texts⟩, ?entities⟩
  case laws =>
    intro left right t joined single double answered
    obtain ⟨o, first, second⟩ := exists_orderedBy joined single double answered
    exact ⟨_, coherent_of_orderedBy first second⟩
  case transitive =>
    intro first second third isFirst isSecond isThird less further
    obtain ⟨u, l, rfl⟩ := exists_of_isInteger isFirst
    obtain ⟨v, m, rfl⟩ := exists_of_isInteger isSecond
    obtain ⟨w, n, rfl⟩ := exists_of_isInteger isThird
    have below := lt_of_orderedBy (orderedBy_integers u v l m) less
    have above := lt_of_orderedBy (orderedBy_integers v w m n) further
    rw [orderedBy_integers u w l n .lt, Std.TransCmp.lt_trans below above]
    rfl
  case texts => exact fun s t => orderedBy_of_texts rfl rfl rfl
  case entities => exact fun e f => orderedBy_of_entities rfl rfl rfl

/-- A list of one unit comes before a text, and a byte before a short before a long. -/
theorem coherent_comparisons_mixed :
    let units : Value := .list (some .short) [some (.integer .short 97)]
    let text : Value := .string "b"
    Ty.join? units.ty text.ty = some .string ∧
      compareSlots .lt (some units) (some text) = .ok true ∧
      (∃ held, Coherent units text held) ∧
      compareSlots .lt (some (.integer .byte (-1))) (some (.integer .long 300)) = .ok true := by
  intro units text
  obtain ⟨laws, -, transitive, -, -⟩ := coherent_comparisons
  have joined : Ty.join? units.ty text.ty = some .string := rfl
  have less : compareSlots .lt (some units) (some text) = .ok true := rfl
  exact ⟨joined, less, laws joined nofun nofun ⟨true, less⟩,
    @transitive (.integer .byte (-1)) (.integer .short 299) (.integer .long 300) rfl rfl rfl rfl rfl⟩

end Value

end Immediate
