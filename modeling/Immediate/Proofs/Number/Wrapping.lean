import Immediate.Eval.Arithmetic
import Immediate.Proofs.Settling
/-! Integer arithmetic. Operands that meet at an integer type count as integers of its width. What an
operator makes of them is computed in 64 bits, whatever the width, and wrapped afterwards; the target is
that this is the two's-complement arithmetic of the width itself. -/
namespace Immediate

open Outcome

theorem Width.bits_le (width : Width) : width.bits ≤ 64 := by cases width <;> decide

/-- That a pattern is what an operator makes of two others, read as the signed integers they stand for.
Sums, differences and products are taken modulo the size of the range. Division goes toward zero, and
its one quotient that does not fit is the dividend. Shifts go by the right operand modulo the width, to
the right with the sign kept. -/
def Computes {w : Nat} (x y z : BitVec w) : BinaryOp → Prop
  | .add => z.toInt = (x.toInt + y.toInt).bmod (Nat.pow 2 w)
  | .sub => z.toInt = (x.toInt - y.toInt).bmod (Nat.pow 2 w)
  | .mul => z.toInt = (x.toInt * y.toInt).bmod (Nat.pow 2 w)
  | .div => z.toInt = if x = .intMin w ∧ y = -1#w then x.toInt else x.toInt.tdiv y.toInt
  | .rem => z.toInt = x.toInt.tmod y.toInt
  | .shl => z.toInt = (x.toInt * Nat.pow 2 (y.toInt % w).toNat).bmod (Nat.pow 2 w)
  | .shr => z.toInt = x.toInt.fdiv (Nat.pow 2 (y.toInt % w).toNat)
  | .bitAnd => ∀ i, z.getLsbD i = (x.getLsbD i && y.getLsbD i)
  | .bitXor => ∀ i, z.getLsbD i = (x.getLsbD i ^^ y.getLsbD i)
  | .bitOr => ∀ i, z.getLsbD i = (x.getLsbD i || y.getLsbD i)
  | .range => False

/-! ### Wide patterns -/

section Wide
variable {w : Nat} (narrow : w ≤ 64)
include narrow

/-- Wrapping a wide pattern takes its integer modulo the size of the narrow range. -/
theorem toInt_setWidth_wide (n : BitVec 64) :
    (n.setWidth w).toInt = n.toInt.bmod (Nat.pow 2 w) := by
  rw [← BitVec.signExtend_eq_setWidth_of_le n narrow, BitVec.toInt_signExtend,
    Nat.min_eq_left narrow]
  rfl

/-- What was wrapped to the wide range may be wrapped to the narrow one at once. -/
theorem bmod_wide (n : Int) : (n.bmod (Nat.pow 2 64)).bmod (Nat.pow 2 w) = n.bmod (Nat.pow 2 w) :=
  Int.bmod_bmod_of_dvd (Nat.pow_dvd_pow 2 narrow)

theorem toInt_widened (x : BitVec w) : (x.signExtend 64).toInt = x.toInt :=
  BitVec.toInt_signExtend_of_le narrow

/-- A result that fits the narrow range is not changed by wrapping it. -/
theorem toInt_setWidth_of_fits {n : BitVec 64} (z : BitVec w) (fits : n.toInt = z.toInt) :
    (n.setWidth w).toInt = z.toInt := by
  rw [toInt_setWidth_wide narrow, fits]
  exact z.toInt_bmod_cancel

theorem setWidth_widened (x : BitVec w) : (x.signExtend 64).setWidth w = x :=
  BitVec.eq_of_toInt_eq (toInt_setWidth_of_fits narrow x (toInt_widened narrow x))

/-! ### One operator after the other -/

variable (x y : BitVec w)

theorem computes_add : Computes x y ((x.signExtend 64 + y.signExtend 64).setWidth w) .add := by
  rw [Computes, toInt_setWidth_wide narrow, BitVec.toInt_add, bmod_wide narrow, toInt_widened narrow,
    toInt_widened narrow]

theorem computes_sub : Computes x y ((x.signExtend 64 - y.signExtend 64).setWidth w) .sub := by
  rw [Computes, toInt_setWidth_wide narrow, BitVec.toInt_sub, bmod_wide narrow, toInt_widened narrow,
    toInt_widened narrow]

theorem computes_mul : Computes x y ((x.signExtend 64 * y.signExtend 64).setWidth w) .mul := by
  rw [Computes, toInt_setWidth_wide narrow, BitVec.toInt_mul, bmod_wide narrow, toInt_widened narrow,
    toInt_widened narrow]

theorem computes_div :
    Computes x y (((x.signExtend 64).sdiv (y.signExtend 64)).setWidth w) .div := by
  have native : (((x.signExtend 64).sdiv (y.signExtend 64)).setWidth w).toInt =
      (x.sdiv y).toInt := by
    rw [toInt_setWidth_wide narrow, BitVec.toInt_sdiv, bmod_wide narrow, toInt_widened narrow,
      toInt_widened narrow, BitVec.toInt_sdiv]
    rfl
  rw [Computes, native]
  split
  · rename_i overflow
    rw [overflow.1, overflow.2, BitVec.intMin_sdiv_neg_one]
  · rename_i fits
    exact BitVec.toInt_sdiv_of_ne_or_ne x y (Decidable.not_and_iff_or_not.mp fits)

theorem computes_rem :
    Computes x y (((x.signExtend 64).srem (y.signExtend 64)).setWidth w) .rem := by
  have exact : ((x.signExtend 64).srem (y.signExtend 64)).toInt = (x.srem y).toInt := by
    rw [BitVec.toInt_srem, toInt_widened narrow, toInt_widened narrow, BitVec.toInt_srem]
  rw [Computes, toInt_setWidth_of_fits narrow (x.srem y) exact, BitVec.toInt_srem]

theorem computes_bitAnd :
    Computes x y ((x.signExtend 64 &&& y.signExtend 64).setWidth w) .bitAnd := by
  rw [BitVec.setWidth_and, setWidth_widened narrow, setWidth_widened narrow]
  exact fun i => BitVec.getLsbD_and

theorem computes_bitXor :
    Computes x y ((x.signExtend 64 ^^^ y.signExtend 64).setWidth w) .bitXor := by
  rw [BitVec.setWidth_xor, setWidth_widened narrow, setWidth_widened narrow]
  exact fun i => BitVec.getLsbD_xor

theorem computes_bitOr :
    Computes x y ((x.signExtend 64 ||| y.signExtend 64).setWidth w) .bitOr := by
  rw [BitVec.setWidth_or, setWidth_widened narrow, setWidth_widened narrow]
  exact fun i => BitVec.getLsbD_or

/-- A wide shift to the left moves out the same bits, and more, as a narrow one. -/
theorem computes_shl {amount : Nat} (lowest : amount = (y.toInt % w).toNat) :
    Computes x y ((x.signExtend 64 <<< amount).setWidth w) .shl := by
  have unsigned : ((x.signExtend 64).toNat : Int).bmod (Nat.pow 2 w) =
      x.toInt.bmod (Nat.pow 2 w) := by
    rw [← bmod_wide narrow, ← BitVec.toInt_eq_toNat_bmod, toInt_widened narrow]
  rw [Computes, toInt_setWidth_wide narrow, BitVec.toInt_shiftLeft, bmod_wide narrow, ← lowest,
    Nat.shiftLeft_eq, Int.natCast_mul, ← Int.bmod_mul_bmod, unsigned, Int.bmod_mul_bmod]
  rfl

theorem computes_shr {amount : Nat} (lowest : amount = (y.toInt % w).toNat) :
    Computes x y (((x.signExtend 64).sshiftRight amount).setWidth w) .shr := by
  have exact : ((x.signExtend 64).sshiftRight amount).toInt = (x.sshiftRight amount).toInt := by
    rw [BitVec.toInt_sshiftRight, toInt_widened narrow, BitVec.toInt_sshiftRight]
  rw [Computes, toInt_setWidth_of_fits narrow _ exact, BitVec.toInt_sshiftRight, lowest,
    Int.shiftRight_eq_div_pow]
  exact (Int.fdiv_eq_ediv_of_nonneg _ (Int.natCast_nonneg _)).symm

end Wide

/-- The lowest bits of a right operand, as many as count up to the width, are the operand modulo the
width. -/
theorem toNat_shift (width : Width) (y : BitVec width.bits) :
    ((y.signExtend 64).setWidth 32 &&& BitVec.ofNat 32 (width.bits - 1)).toNat =
      (y.toInt % width.bits).toNat := by
  rw [← toInt_widened width.bits_le y, BitVec.toInt_eq_toNat_cond, BitVec.toNat_and,
    BitVec.toNat_setWidth]
  generalize (y.signExtend 64).toNat = n
  have masked (k : Nat) : n % 2 ^ 32 &&& (2 ^ k - 1) = n % 2 ^ 32 % 2 ^ k :=
    Nat.and_two_pow_sub_one_eq_mod _ k
  cases width with
  | byte =>
    refine (masked 3).trans ?_
    change _ = ((if _ then (n : Int) else n - 2 ^ 64) % 8).toNat
    omega
  | short =>
    refine (masked 4).trans ?_
    change _ = ((if _ then (n : Int) else n - 2 ^ 64) % 16).toNat
    omega
  | int =>
    refine (masked 5).trans ?_
    change _ = ((if _ then (n : Int) else n - 2 ^ 64) % 32).toNat
    omega
  | long =>
    refine (masked 6).trans ?_
    change _ = ((if _ then (n : Int) else n - 2 ^ 64) % 64).toNat
    omega

namespace Value

/-! ### Operands of every kind -/

/-- That an operator has no result: it divides, and the right operand is nothing. -/
def DividesByZero {w : Nat} (op : BinaryOp) (y : BitVec w) : Prop :=
  (op = .div ∨ op = .rem) ∧ y = 0

theorem widened_eq_zero_iff {w : Nat} (narrow : w ≤ 64) {y : BitVec w} :
    y.signExtend 64 = 0 ↔ y = 0 :=
  calc y.signExtend 64 = 0
    _ ↔ (y.signExtend 64).toInt = (0#64).toInt := BitVec.toInt_inj.symm
    _ ↔ y.toInt = (0#w).toInt := by rw [toInt_widened narrow, BitVec.toInt_zero, BitVec.toInt_zero]
    _ ↔ y = 0 := BitVec.toInt_inj

section Operands
variable {width : Width} {op : BinaryOp} (x y : BitVec width.bits)

theorem integerOperation_of_zero (divides : DividesByZero op y) :
    integerOperation width op (x.signExtend 64) (y.signExtend 64) = .error .divisionByZero := by
  obtain ⟨rfl | rfl, zero⟩ := divides
  · exact if_pos ((widened_eq_zero_iff width.bits_le).mpr zero)
  · exact if_pos ((widened_eq_zero_iff width.bits_le).mpr zero)

theorem exists_integerOperation (other : op ≠ .range) (divides : ¬DividesByZero op y) :
    ∃ z, integerOperation width op (x.signExtend 64) (y.signExtend 64) = .ok (.integer width z) ∧
      Computes x y z op := by
  have narrow := width.bits_le
  have nonzero (which : op = .div ∨ op = .rem) : ¬y.signExtend 64 = 0 := fun zero =>
    divides ⟨which, (widened_eq_zero_iff narrow).mp zero⟩
  cases op with
  | add => exact ⟨_, rfl, computes_add narrow x y⟩
  | sub => exact ⟨_, rfl, computes_sub narrow x y⟩
  | mul => exact ⟨_, rfl, computes_mul narrow x y⟩
  | div => exact ⟨_, if_neg (nonzero (.inl rfl)), computes_div narrow x y⟩
  | rem => exact ⟨_, if_neg (nonzero (.inr rfl)), computes_rem narrow x y⟩
  | shl => exact ⟨_, rfl, computes_shl narrow x y (toNat_shift width y)⟩
  | shr => exact ⟨_, rfl, computes_shr narrow x y (toNat_shift width y)⟩
  | bitAnd => exact ⟨_, rfl, computes_bitAnd narrow x y⟩
  | bitXor => exact ⟨_, rfl, computes_bitXor narrow x y⟩
  | bitOr => exact ⟨_, rfl, computes_bitOr narrow x y⟩
  | range => exact absurd rfl other

end Operands

/-- Whatever lowers to an integer counts as one: of text and positions no integer is reached, and of
entries nothing. -/
theorem exists_cast_integer {v : Value} {width : Width}
    (member : .scalar (.integer width) ∈ v.ty.chain) :
    ∃ n, cast (.scalar (.integer width)) v = .ok (.integer width n) := by
  have counted {n : Int} (counts : v.toInteger? = some n) :
      ∃ n, cast (.scalar (.integer width)) v = .ok (.integer width n) := by
    refine ⟨BitVec.ofInt width.bits n, ?_⟩
    rw [cast_scalar, castScalar, toScalar?, counts]
    rfl
  cases v with
  | integer | float | double | entity | list | iterator | map => exact counted rfl
  | string | position =>
    cases List.mem_singleton.mp member
  | entry keyTy valueTy key value =>
    have lowest : (Value.entry keyTy valueTy key value).ty.lowered? = none := by rw [ty]; rfl
    rw [Ty.chain_of_lowest lowest] at member
    cases List.mem_singleton.mp member

/-- Operands that meet at an integer type are integers of its width, and an operator makes of them what
arithmetic of that width does. Division by zero alone has no result. -/
theorem operate_integers {op : BinaryOp} {left right : Value} {width : Width}
    (operable : Ty.operable? left.ty right.ty [op.capability] = some (.scalar (.integer width)))
    (other : op ≠ .range) :
    ∃ x y : BitVec width.bits,
      cast (.scalar (.integer width)) left = .ok (.integer width x) ∧
      cast (.scalar (.integer width)) right = .ok (.integer width y) ∧
      (operate op left right = .error .divisionByZero ↔ DividesByZero op y) ∧
      (¬DividesByZero op y →
        ∃ z, operate op left right = .ok (.integer width z) ∧ Computes x y z op) := by
  obtain ⟨onLeft, onRight⟩ := Ty.mem_chains_of_operable operable
  obtain ⟨x, castLeft⟩ := exists_cast_integer onLeft
  obtain ⟨y, castRight⟩ := exists_cast_integer onRight
  have operation : operate op left right =
      integerOperation width op (x.signExtend 64) (y.signExtend 64) := by
    simp only [operate, operable, castLeft, castRight, ok_bind, operateJoined]
  rw [operation]
  refine ⟨x, y, castLeft, castRight, ⟨fun failed => ?_, integerOperation_of_zero x y⟩,
    exists_integerOperation x y other⟩
  refine Classical.byContradiction fun divides => ?_
  obtain ⟨z, held, -⟩ := exists_integerOperation x y other divides
  cases failed.symm.trans held

/-- The smallest short divided by the byte -1 wraps to itself. -/
theorem operate_integers_smallest :
    let least : Value := .integer .short (.intMin 16)
    let minusOne : Value := .integer .byte (-1#8)
    Ty.operable? least.ty minusOne.ty [.div] = some .short ∧ BinaryOp.div ≠ .range ∧
      operate .div least minusOne = .ok least := by
  intro least minusOne
  have operable : Ty.operable? least.ty minusOne.ty [.div] = some .short := rfl
  obtain ⟨x, y, castLeft, castRight, -, computed⟩ :=
    @operate_integers .div least minusOne .short operable nofun
  cases castLeft
  cases castRight
  have nonzero : ¬DividesByZero BinaryOp.div (-1#16) := fun divides => absurd divides.2 (by decide)
  obtain ⟨z, held, quotient⟩ := computed nonzero
  have wrapped : z = .intMin 16 :=
    BitVec.eq_of_toInt_eq (quotient.trans (if_pos ⟨by decide, by decide⟩))
  exact ⟨operable, nofun, held.trans (congrArg (Except.ok ∘ Value.integer .short) wrapped)⟩

end Value
end Immediate
