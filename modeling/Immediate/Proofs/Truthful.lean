import Immediate.Proofs.Evaluation
import Immediate.Proofs.Exact
/-! Truthful values. A value is truthful when what its containers hold fits the child types that they
declare, at every depth. Casts make values truthful, whatever they were before. A sum of two containers
has the contents of both under the child types of the left one alone, and each operand takes those that
the joint type leaves open from its own contents; so a sum is truthful exactly when what the right
operand adds fits what the left one was cast to. -/
namespace Immediate.Value

/-- At every depth, what a container holds fits the child type that the container declares. -/
inductive Truthful : Value → Prop where
  | scalar {v : Value} {s : Scalar} (kind : v.kind = .scalar s) : Truthful v
  | list {own : Option Ty} {items : List Slot} (fit : ∀ slot ∈ items, SlotFits own slot)
    (contents : ∀ slot ∈ items, ∀ v ∈ slot, Truthful v) : Truthful (.list own items)
  | iterator {own : Option Ty} {items : List Slot} (fit : ∀ slot ∈ items, SlotFits own slot)
    (contents : ∀ slot ∈ items, ∀ v ∈ slot, Truthful v) : Truthful (.iterator own items)
  | map {ownKey ownValue : Option Ty} {pairs : List (Value × Slot)}
    (fit : PairsFit ownKey ownValue pairs) (keys : ∀ pair ∈ pairs, Truthful pair.1)
    (values : ∀ pair ∈ pairs, ∀ v ∈ pair.2, Truthful v) : Truthful (.map ownKey ownValue pairs)
  | entry {ownKey ownValue : Option Ty} {key value : Slot} (keyFits : SlotFits ownKey key)
    (valueFits : SlotFits ownValue value) (keyHalf : ∀ v ∈ key, Truthful v)
    (valueHalf : ∀ v ∈ value, Truthful v) : Truthful (.entry ownKey ownValue key value)

theorem truthful_list_iff {own : Option Ty} {items : List Slot} :
    Truthful (.list own items) ↔
      (∀ slot ∈ items, SlotFits own slot) ∧ ∀ slot ∈ items, ∀ v ∈ slot, Truthful v := by
  constructor
  · intro truthful
    cases truthful with
    | scalar kind => cases kind
    | list fit contents => exact ⟨fit, contents⟩
  · rintro ⟨fit, contents⟩
    exact .list fit contents

theorem truthful_map_iff {ownKey ownValue : Option Ty} {pairs : List (Value × Slot)} :
    Truthful (.map ownKey ownValue pairs) ↔ PairsFit ownKey ownValue pairs ∧
      (∀ pair ∈ pairs, Truthful pair.1) ∧ ∀ pair ∈ pairs, ∀ v ∈ pair.2, Truthful v := by
  constructor
  · intro truthful
    cases truthful with
    | scalar kind => cases kind
    | map fit keys values => exact ⟨fit, keys, values⟩
  · rintro ⟨fit, keys, values⟩
    exact .map fit keys values

/-! ### Cast values -/

theorem fits_of_hasTy {t : Ty} {v : Value} (has : HasTy t v) : Fits t v := by
  induction has with
  | scalar kind => exact .scalar kind
  | list kept contents unset ih => exact .list kept ih
  | iterator kept contents unset ih => exact .iterator kept ih
  | map keptKey keptValue keys values unsetKey unsetValue keyIH valueIH =>
    exact .map keptKey keptValue keyIH valueIH
  | entry keptKey keptValue keyHalf valueHalf unsetKey unsetValue keyIH valueIH =>
    exact .entry keptKey keptValue keyIH valueIH

theorem truthful_of_hasTy {t : Ty} {v : Value} (has : HasTy t v) : Truthful v := by
  induction has with
  | scalar kind => exact .scalar kind
  | list kept contents unset ih =>
    exact .list (fun slot member t known v held => fits_of_hasTy (contents t known slot member v held))
      fun slot member => each_of_declared (fun t known => ih t known slot member)
        fun none => unset none slot member
  | iterator kept contents unset ih =>
    exact .iterator
      (fun slot member t known v held => fits_of_hasTy (contents t known slot member v held))
      fun slot member => each_of_declared (fun t known => ih t known slot member)
        fun none => unset none slot member
  | @map wantedKey wantedValue ownKey ownValue pairs keptKey keptValue keys values unsetKey unsetValue
      keyIH valueIH =>
    refine .map ⟨fun t known pair member => fits_of_hasTy (keys t known pair member),
      fun pair member t known v held => fits_of_hasTy (values t known pair member v held)⟩
      (fun pair member => ?_) fun pair member => each_of_declared
        (fun t known => valueIH t known pair member) fun none => unsetValue none pair member
    cases ownKey with
    | none =>
      rw [unsetKey rfl] at member
      cases member
    | some t => exact keyIH t rfl pair member
  | entry keptKey keptValue keyHalf valueHalf unsetKey unsetValue keyIH valueIH =>
    exact .entry (fun t known v held => fits_of_hasTy (keyHalf t known v held))
      (fun t known v held => fits_of_hasTy (valueHalf t known v held))
      (each_of_declared keyIH unsetKey) (each_of_declared valueIH unsetValue)

/-! ### Sums -/

/-- What the right one of two containers adds to the left one fits what the left one declares. A key that
the left one has already is not taken from the right one. -/
def AddsTruly : (left right : Value) → Prop
  | .list own _, .list _ more => ∀ slot ∈ more, SlotFits own slot
  | .map ownKey ownValue pairs, .map _ _ more =>
    (∀ pair ∈ more, lookup pairs pair.1 = none → ∀ t ∈ ownKey, Fits t pair.1) ∧
      ∀ pair ∈ more, SlotFits ownValue pair.2
  | _, _ => True

private theorem pairsFit_insertAll {ownKey ownValue : Option Ty} {pairs more : List (Value × Slot)}
    (fit : PairsFit ownKey ownValue pairs)
    (keys : ∀ pair ∈ more, lookup pairs pair.1 = none → ∀ t ∈ ownKey, Fits t pair.1)
    (values : ∀ pair ∈ more, SlotFits ownValue pair.2) :
    PairsFit ownKey ownValue (insertAll pairs more) := by
  induction more generalizing pairs with
  | nil => exact fit
  | cons head rest ih =>
    have first := fit.insert (keys head List.mem_cons_self) (values head List.mem_cons_self)
    refine ih first (fun pair member absent => ?_) fun pair member =>
      values pair (List.mem_cons_of_mem _ member)
    exact keys pair (List.mem_cons_of_mem _ member) (lookup_of_insert_eq_none absent)

private theorem truthful_lists_iff {own own' : Option Ty} {items more : List Slot}
    (left : Truthful (.list own items)) (right : Truthful (.list own' more)) :
    Truthful (.list own (items ++ more)) ↔ AddsTruly (.list own items) (.list own' more) := by
  obtain ⟨fit, contents⟩ := truthful_list_iff.mp left
  obtain ⟨-, others⟩ := truthful_list_iff.mp right
  constructor
  · intro truthful slot member
    exact (truthful_list_iff.mp truthful).1 slot (List.mem_append_right _ member)
  · intro adds
    exact .list (List.forall_mem_append.mpr ⟨fit, adds⟩) (List.forall_mem_append.mpr ⟨contents, others⟩)

private theorem truthful_maps_iff {ownKey ownValue ownKey' ownValue' : Option Ty}
    {pairs more : List (Value × Slot)} (keyed : PairsKeyed pairs) (moreKeyed : PairsKeyed more)
    (left : Truthful (.map ownKey ownValue pairs)) (right : Truthful (.map ownKey' ownValue' more)) :
    Truthful (.map ownKey ownValue (insertAll pairs more)) ↔
      AddsTruly (.map ownKey ownValue pairs) (.map ownKey' ownValue' more) := by
  obtain ⟨fit, keys, values⟩ := truthful_map_iff.mp left
  obtain ⟨-, moreKeys, moreValues⟩ := truthful_map_iff.mp right
  constructor
  · intro truthful
    obtain ⟨whole, -, -⟩ := truthful_map_iff.mp truthful
    refine ⟨fun pair member absent t known => ?_, fun pair member => ?_⟩
    · obtain ⟨other, inside, equal⟩ :=
        List.mem_map.mp (mem_keys_insertAll_of_absent keyed moreKeyed member absent)
      rw [← equal]
      exact whole.keys t known other inside
    · exact whole.lookup (lookup_insertAll_of_mem keyed moreKeyed member)
  · rintro ⟨newKeys, newValues⟩
    refine .map (pairsFit_insertAll fit newKeys newValues) ?_ ?_
    · intro pair member
      obtain ⟨⟨other, inside, equal⟩, -⟩ := mem_insertAll member
      rw [← equal]
      exact (List.forall_mem_append.mpr ⟨keys, moreKeys⟩) other inside
    · intro pair member
      obtain ⟨-, other, inside, equal⟩ := mem_insertAll member
      rw [← equal]
      exact (List.forall_mem_append.mpr ⟨values, moreValues⟩) other inside

private theorem addsTruly_of_scalar {left right : Value} {s : Scalar} (kind : left.kind = .scalar s) :
    AddsTruly left right := by
  cases left with
  | list | iterator | map | entry => cases kind
  | _ => exact trivial

/-- Where the type that both operands were cast to leaves nothing open, both have the same child types. -/
private theorem addsTruly_of_hasTy {t : Ty} {left right : Value}
    (closed : ∀ child ∈ t.children, child ≠ none) (first : HasTy t left) (second : HasTy t right) :
    AddsTruly left right := by
  have known {wanted own : Option Ty} (member : wanted ∈ t.children) (kept : Keeps wanted own) :
      ∀ u ∈ own, wanted = some u := by
    intro u declared
    obtain ⟨child, rfl⟩ := Option.ne_none_iff_exists'.mp (closed wanted member)
    rw [← kept child rfl]
    exact declared
  cases first with
  | scalar kind => exact addsTruly_of_scalar kind
  | list kept =>
    cases second with
    | list keptRight contents =>
      intro slot member u declared v held
      have wanted := known (List.mem_singleton.mpr rfl) kept u declared
      exact fits_of_hasTy (contents u (keptRight u wanted) slot member v held)
  | map keptKey keptValue =>
    cases second with
    | map keptKeyRight keptValueRight keys values =>
      refine ⟨fun pair member _ u declared => ?_, fun pair member u declared v held => ?_⟩
      · have wanted := known (List.mem_cons_self) keptKey u declared
        exact fits_of_hasTy (keys u (keptKeyRight u wanted) pair member)
      · have wanted := known (List.mem_cons_of_mem _ List.mem_cons_self) keptValue u declared
        exact fits_of_hasTy (values u (keptValueRight u wanted) pair member v held)
  | iterator | entry => exact trivial

/-- The result of an operator is truthful exactly when what the right operand adds fits what the left one
declares, both as they were cast. So it is whenever the type that they were cast to sets its child types,
and whenever it is no sum of two lists or maps. -/
theorem truthful_of_operate {op : BinaryOp} {left right v : Value}
    (run : operate op left right = .ok v) :
    ∃ t l r, Ty.operable? left.ty right.ty [op.capability] = some t ∧ cast t left = .ok l ∧
      cast t right = .ok r ∧ (Truthful v ↔ AddsTruly l r) ∧
      ((∀ child ∈ t.children, child ≠ none) → Truthful v) := by
  obtain ⟨t, l, r, found, castLeft, castRight, operated⟩ := operated_of_operate run
  have first := settled_of_cast castLeft
  have second := settled_of_cast castRight
  have truthfulLeft := truthful_of_hasTy (hasTy_of_settled first)
  have truthfulRight := truthful_of_hasTy (hasTy_of_settled second)
  have adds : Truthful v ↔ AddsTruly l r := by
    cases operated with
    | scalar operand kind => exact iff_of_true (.scalar kind) (addsTruly_of_scalar operand)
    | lists => exact truthful_lists_iff truthfulLeft truthfulRight
    | maps =>
      exact truthful_maps_iff (keyed_map_iff.mp (keyed_of_settled first))
        (keyed_map_iff.mp (keyed_of_settled second)) truthfulLeft truthfulRight
  exact ⟨t, l, r, found, castLeft, castRight, adds, fun closed =>
    adds.mpr (addsTruly_of_hasTy closed (hasTy_of_settled first) (hasTy_of_settled second))⟩

/-- Two maps that declare nothing, with a key in common. Both are cast to maps of integers, so their sum is
one. -/
theorem truthful_of_operate_agreeing :
    let one : Value := .integer .int 1#32
    let two : Value := .integer .int 2#32
    let sum : Value := .map (some .int) (some .int) [(one, some two), (two, none)]
    operate .add (.map none none [(one, some one)])
      (.map none none [(one, some two), (two, none)]) = .ok sum ∧ Truthful sum := by
  intro one two sum
  have run : operate .add (.map none none [(one, some one)])
      (.map none none [(one, some two), (two, none)]) = .ok sum := rfl
  obtain ⟨t, l, r, found, castLeft, castRight, adds, -⟩ := truthful_of_operate run
  cases found
  cases castLeft
  cases castRight
  refine ⟨run, adds.mpr ⟨fun pair member _ t known => ?_, fun pair member t known v held => ?_⟩⟩
  · cases known
    rcases List.mem_pair.mp member with rfl | rfl <;> exact .scalar rfl
  · cases known
    rcases List.mem_pair.mp member with rfl | rfl
    · cases held
      exact .scalar rfl
    · cases held

/-- Two lists that declare nothing. Each is cast to the type of its own element, and the sum has both
under the type of the first. -/
theorem not_truthful_of_operate :
    let numbers : Value := .list none [some (.integer .int 1#32)]
    let texts : Value := .list none [some (.string "x")]
    ∃ v, Truthful numbers ∧ Truthful texts ∧ operate .add numbers texts = .ok v ∧ ¬Truthful v := by
  intro numbers texts
  refine ⟨.list (some .int) [some (.integer .int 1#32), some (.string "x")], ?_, ?_, rfl, ?_⟩
  · refine .list (fun _ _ => nofun) fun slot member v held => ?_
    cases List.mem_singleton.mp member
    cases held
    exact .scalar rfl
  · refine .list (fun _ _ => nofun) fun slot member v held => ?_
    cases List.mem_singleton.mp member
    cases held
    exact .scalar rfl
  · intro truthful
    have fits := (truthful_list_iff.mp truthful).1 (some (.string "x")) (.tail _ (.head _)) .int rfl
    cases kind_of_fits (fits _ rfl)

end Immediate.Value
