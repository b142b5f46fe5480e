import Immediate.Value.Equality
/-! Values by their contents. A value is built from the slots it contains, so a statement passes
from the contents of a value to the value itself. -/
namespace Immediate.Value

private theorem half_smaller {v : Value} {half : Slot} (held : v ∈ half) :
    sizeOf v < sizeOf half := by
  cases held
  simp only [Option.some.sizeOf_spec]
  omega

private theorem item_smaller {v : Value} {slot : Slot} {items : List Slot} (member : slot ∈ items)
    (held : v ∈ slot) : sizeOf v < sizeOf items :=
  Nat.lt_trans (half_smaller held) (List.sizeOf_lt_of_mem member)

private theorem key_smaller {pair : Value × Slot} {pairs : List (Value × Slot)}
    (member : pair ∈ pairs) : sizeOf pair.1 < sizeOf pairs := by
  have smaller := List.sizeOf_lt_of_mem member
  obtain ⟨key, slot⟩ := pair
  simp only [Prod.mk.sizeOf_spec] at smaller ⊢
  omega

private theorem pair_value_smaller {v : Value} {pair : Value × Slot} {pairs : List (Value × Slot)}
    (member : pair ∈ pairs) (held : v ∈ pair.2) : sizeOf v < sizeOf pairs := by
  have smaller := List.sizeOf_lt_of_mem member
  have within := half_smaller held
  obtain ⟨key, slot⟩ := pair
  simp only [Prod.mk.sizeOf_spec] at smaller within ⊢
  omega

/-- What holds of a value whenever it holds of all its contents holds of every value. -/
@[elab_as_elim, induction_eliminator]
theorem contents_induction {motive : Value → Prop}
    (integer : ∀ width n, motive (.integer width n)) (float : ∀ x, motive (.float x))
    (double : ∀ x, motive (.double x)) (string : ∀ s, motive (.string s))
    (entity : ∀ e, motive (.entity e)) (position : ∀ p, motive (.position p))
    (list : ∀ element items, (∀ slot ∈ items, ∀ v ∈ slot, motive v) →
      motive (.list element items))
    (iterator : ∀ element items, (∀ slot ∈ items, ∀ v ∈ slot, motive v) →
      motive (.iterator element items))
    (map : ∀ keyTy valueTy pairs, (∀ pair ∈ pairs, motive pair.1) →
      (∀ pair ∈ pairs, ∀ v ∈ pair.2, motive v) → motive (.map keyTy valueTy pairs))
    (entry : ∀ keyTy valueTy key value, (∀ v ∈ key, motive v) → (∀ v ∈ value, motive v) →
      motive (.entry keyTy valueTy key value)) (v : Value) : motive v := by
  induction size : sizeOf v using Nat.strongRecOn generalizing v with
  | _ n smaller =>
    subst size
    have below (w : Value) (lt : sizeOf w < sizeOf v) : motive w := smaller _ lt w rfl
    cases v with
    | integer width n => exact integer width n
    | float x => exact float x
    | double x => exact double x
    | string s => exact string s
    | entity e => exact entity e
    | position p => exact position p
    | list element items =>
      refine list element items fun slot member w held => below w ?_
      have := item_smaller member held
      simp only [Value.list.sizeOf_spec]
      omega
    | iterator element items =>
      refine iterator element items fun slot member w held => below w ?_
      have := item_smaller member held
      simp only [Value.iterator.sizeOf_spec]
      omega
    | map keyTy valueTy pairs =>
      refine map keyTy valueTy pairs (fun pair member => below pair.1 ?_)
        (fun pair member w held => below w ?_)
      · have := key_smaller member
        simp only [Value.map.sizeOf_spec]
        omega
      · have := pair_value_smaller member held
        simp only [Value.map.sizeOf_spec]
        omega
    | entry keyTy valueTy key value =>
      refine entry keyTy valueTy key value (fun w held => below w ?_) (fun w held => below w ?_)
      all_goals
        have := half_smaller held
        simp only [Value.entry.sizeOf_spec]
        omega

end Immediate.Value
