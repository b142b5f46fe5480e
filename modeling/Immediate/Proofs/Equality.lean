import Immediate.Proofs.Joining
import Immediate.Proofs.Ordering
import Immediate.Proofs.Unmoved
/-! Equality of values. It asks for a joint type and for two casts, so it can fail where one of them is
refused, and it sees what the casts leave. Otherwise it is symmetric, the opposite of inequality, and
holds of what is the same. The target is that declared types that tell all about two values are enough
for that, and a joint type. -/
namespace Immediate

open Outcome

namespace Value

/-! ### Both ways round -/

/-- Whether two values of one type are equal: by their order, if they are numbers. -/
def agree (t : Ty) (left right : Value) : Bool :=
  if t.kind.isNumeric then numericOrder? left right = some .eq else same left right

theorem equal_of_casts {left right l r : Value} {t : Ty}
    (joined : Ty.join? left.ty right.ty = some t) (castLeft : cast t left = .ok l)
    (castRight : cast t right = .ok r) : equal left right = .ok (agree t l r) := by
  simp only [equal, joined, castLeft, castRight, ok_bind, agree]
  split <;> rfl

theorem equal_of_apart {left right : Value} (apart : Ty.join? left.ty right.ty = none) :
    equal left right = .ok false := by
  rw [equal, apart]

/-- What equality answers is what is found after the casts to the joint type, if there is one. -/
theorem equal_eq_ok_iff {left right : Value} {held : Bool} : equal left right = .ok held ↔
    (Ty.join? left.ty right.ty = none ∧ held = false) ∨
      ∃ t l r, Ty.join? left.ty right.ty = some t ∧ cast t left = .ok l ∧ cast t right = .ok r ∧
        held = agree t l r := by
  constructor
  · intro answered
    cases joined : Ty.join? left.ty right.ty with
    | none =>
      rw [equal_of_apart joined] at answered
      exact .inl ⟨rfl, (Except.ok.inj answered).symm⟩
    | some t =>
      have casts := answered
      simp only [equal, joined, bind_eq_ok] at casts
      obtain ⟨l, castLeft, r, castRight, -⟩ := casts
      rw [equal_of_casts joined castLeft castRight] at answered
      exact .inr ⟨t, l, r, rfl, castLeft, castRight, (Except.ok.inj answered).symm⟩
  · rintro (⟨apart, rfl⟩ | ⟨t, l, r, joined, castLeft, castRight, rfl⟩)
    · exact equal_of_apart apart
    · exact equal_of_casts joined castLeft castRight

/-- Equality fails just where a cast to the joint type does. -/
theorem exists_equal_iff {left right : Value} : (∃ held, equal left right = .ok held) ↔
    ∀ t ∈ Ty.join? left.ty right.ty, (∃ l, cast t left = .ok l) ∧ ∃ r, cast t right = .ok r := by
  constructor
  · rintro ⟨held, answered⟩ t joined
    obtain ⟨apart, -⟩ | ⟨u, l, r, joined', castLeft, castRight, -⟩ := equal_eq_ok_iff.mp answered
    · cases apart.symm.trans joined
    · cases joined'.symm.trans joined
      exact ⟨⟨l, castLeft⟩, r, castRight⟩
  · intro castable
    cases joined : Ty.join? left.ty right.ty with
    | none => exact ⟨false, equal_of_apart joined⟩
    | some t =>
      obtain ⟨⟨l, castLeft⟩, r, castRight⟩ := castable t joined
      exact ⟨_, equal_of_casts joined castLeft castRight⟩

theorem order?_swap (x y : Binary64) : y.order? x = (x.order? y).map .swap := by
  unfold Binary64.order?
  rw [Bool.or_comm]
  split
  · rfl
  · rw [Option.map_some, ← Std.OrientedCmp.eq_swap]

theorem numericOrder?_swap (left right : Value) :
    numericOrder? right left = (numericOrder? left right).map .swap := by
  have floating (x y : Option Binary64) :
      (do (← y).order? (← x)) = (do (← x).order? (← y) : Option Ordering).map .swap := by
    cases x with
    | none => cases y <;> rfl
    | some x =>
      cases y with
      | none => rfl
      | some y => exact order?_swap x y
  cases left with
  | integer w n =>
    cases right with
    | integer => exact congrArg some Std.OrientedCmp.eq_swap
    | _ => exact floating _ _
  | _ => cases right <;> exact floating _ _

theorem agree_comm {t : Ty} {left right : Value} (first : left.Keyed) (second : right.Keyed) :
    agree t left right = agree t right left := by
  unfold agree
  split
  · rw [numericOrder?_swap left right]
    cases numericOrder? left right with
    | none => rfl
    | some o => cases o <;> rfl
  · exact same_comm first second

/-- Equality answers the same both ways round. -/
theorem equal_comm {left right : Value} {held : Bool} (answered : equal left right = .ok held) :
    equal right left = .ok held := by
  refine equal_eq_ok_iff.mpr ?_
  rw [Ty.join?_comm]
  rcases equal_eq_ok_iff.mp answered with apart | ⟨t, l, r, joined, castLeft, castRight, rfl⟩
  · exact .inl apart
  · refine .inr ⟨t, r, l, joined, castRight, castLeft, agree_comm ?_ ?_⟩
    · exact keyed_of_settled (settled_of_cast castLeft)
    · exact keyed_of_settled (settled_of_cast castRight)

end Value

/-! ### The joint type of what is the same -/

namespace Ty

/-- A type that is not on the chain of another makes room for the one it lowers to. -/
theorem join?_of_lowered {a b lower : Ty} (off : a ∉ b.chain) (lowered : a.lowered? = some lower) :
    join? a b = join? lower b := by
  have passed : ¬b.chain.contains a = true := fun held => off (List.contains_iff_mem.mp held)
  rw [join?, chain_of_lowered lowered, List.find?_cons_of_neg passed]
  rfl

/-- So do two types of one height together. -/
theorem join?_of_level {a b lowerA lowerB : Ty} (level : a.height = b.height) (apart : a ≠ b)
    (first : a.lowered? = some lowerA) (second : b.lowered? = some lowerB) :
    join? a b = join? lowerA lowerB := by
  have offFirst : a ∉ b.chain := by
    intro member
    rcases eq_or_height_lt member with equal | below
    · exact apart equal
    · omega
  have offSecond : b ∉ lowerA.chain := by
    intro member
    have lower := height_lowered first
    rcases eq_or_height_lt member with rfl | below
    · omega
    · omega
  rw [join?_of_lowered offFirst first, join?_comm, join?_of_lowered offSecond second, join?_comm]

/-- Right above the integers of a count stand lists, maps and shorts, and a list that is text. -/
theorem lowered_of_height {a : Ty} (level : a.height = 4) :
    a.lowered? = some .int ∨ a = .list (some .short) := by
  cases a with
  | scalar s =>
    cases s with
    | integer width =>
      cases width with
      | short => exact .inl rfl
      | byte | int | long => cases level
    | float | double | string | entity | position => cases level
  | list element =>
    by_cases text : element = some .short
    · exact .inr (congrArg Ty.list text)
    · refine .inl ?_
      unfold lowered?
      split <;> simp_all
  | map => exact .inl rfl
  | iterator | entry => cases level

theorem eq_int_of_level {a b t : Ty} (first : a.height = 4) (second : b.height = 4) (apart : a ≠ b)
    (joined : join? a b = some t) : t = .int := by
  have level : a.height = b.height := first.trans second.symm
  rcases lowered_of_height first with countA | rfl
  · rcases lowered_of_height second with countB | rfl
    · rw [join?_of_level level apart countA countB] at joined
      exact (Option.some.inj joined).symm
    · rw [join?_of_level level apart countA rfl] at joined
      cases joined
  · rcases lowered_of_height second with countB | rfl
    · rw [join?_of_level level apart rfl countB] at joined
      cases joined
    · exact absurd rfl apart

/-- An iterator lowers to what it walks over: a map if its elements are entries, or else a list. -/
theorem exists_walked (element : Option Ty) : ∃ walked,
    (Ty.iterator element).lowered? = some walked ∧ walked.height = 4 ∧
      (walked = .list element ∨
        ∃ key value, element = some (.entry key value) ∧ walked = .map key value) := by
  cases element with
  | none => exact ⟨_, rfl, rfl, .inl rfl⟩
  | some t =>
    cases t with
    | entry key value => exact ⟨_, rfl, rfl, .inr ⟨key, value, rfl, rfl⟩⟩
    | scalar | list | iterator | map => exact ⟨_, rfl, rfl, .inl rfl⟩

theorem eq_int_of_iterators {x y : Option Ty} {t : Ty} (apart : x ≠ y)
    (joined : join? (.iterator x) (.iterator y) = some t) : t = .int := by
  obtain ⟨first, lowerX, levelX, toldX⟩ := exists_walked x
  obtain ⟨second, lowerY, levelY, toldY⟩ := exists_walked y
  have different : first ≠ second := by
    rintro rfl
    rcases toldX with rfl | ⟨key, value, rfl, rfl⟩ <;>
      rcases toldY with equal | ⟨key', value', rfl, equal⟩ <;> cases equal
    · exact apart rfl
    · exact apart rfl
  have level : (Ty.iterator x).height = (Ty.iterator y).height := rfl
  have distinct : Ty.iterator x ≠ .iterator y := fun equal => apart (Ty.iterator.inj equal)
  rw [join?_of_level level distinct lowerX lowerY] at joined
  exact eq_int_of_level levelX levelY different joined

end Ty

namespace Value

theorem ty_of_scalar {v : Value} {s : Scalar} (kind : v.kind = .scalar s) : v.ty = .scalar s := by
  cases v with
  | integer | float | double | string | entity | position =>
    exact congrArg Ty.scalar (Kind.scalar.inj kind)
  | list | iterator | map | entry => cases kind

/-- What is the same is joined at its own type, or else where contents are counted. -/
theorem meeting_of_same {a b : Value} {t : Ty} (held : same a b = true)
    (joined : Ty.join? a.ty b.ty = some t) :
    (a.ty = t ∧ b.ty = t) ∨ t = .int ∧ ∃ n, a.toInteger? = some n ∧ b.toInteger? = some n := by
  by_cases equal : a.ty = b.ty
  · rw [equal, Ty.join?_self] at joined
    exact .inl ⟨equal.trans (Option.some.inj joined), Option.some.inj joined⟩
  · refine .inr ?_
    have kinds := kind_eq_of_same held
    have notScalar {s : Scalar} (kind : a.kind = .scalar s) : False :=
      equal ((ty_of_scalar kind).trans (ty_of_scalar (kinds.symm.trans kind)).symm)
    cases a with
    | integer | float | double | string | entity | position => exact (notScalar rfl).elim
    | list element items =>
      cases b with
      | list other others =>
        have long := (sameItems_iff.mp held).length_eq
        exact ⟨Ty.eq_int_of_level rfl rfl equal joined, items.length, rfl, by rw [long]; rfl⟩
      | _ => cases kinds
    | iterator element items =>
      cases b with
      | iterator other others =>
        have long := (sameItems_iff.mp held).length_eq
        have apart : element ≠ other := fun alike => equal (congrArg Ty.iterator alike)
        exact ⟨Ty.eq_int_of_iterators apart joined, items.length, rfl, by rw [long]; rfl⟩
      | _ => cases kinds
    | map keyTy valueTy pairs =>
      cases b with
      | map otherKey otherValue others =>
        have long : pairs.length = others.length :=
          of_decide_eq_true (Bool.and_eq_true_iff.mp held).1
        exact ⟨Ty.eq_int_of_level rfl rfl equal joined, pairs.length, rfl, by rw [long]; rfl⟩
      | _ => cases kinds
    | entry keyTy valueTy key value =>
      cases b with
      | entry otherKey otherValue other otherSlot =>
        -- Entries lower to nothing, so they are joined only where their types are one.
        obtain ⟨first, second⟩ := Ty.mem_chains_of_join joined
        rw [ty, Ty.chain_of_lowest rfl, List.mem_singleton] at first second
        exact absurd (first.symm.trans second) equal
      | _ => cases kinds

/-! ### The laws -/

theorem agree_of_same {t : Ty} {left right : Value} (kind : left.kind = t.kind) (single : t ≠ .float)
    (double : t ≠ .double) (held : same left right = true) : agree t left right = true := by
  unfold agree
  split
  · rename_i numeric
    obtain ⟨width, rfl⟩ := exists_width numeric single double
    obtain ⟨x, rfl⟩ := exists_of_integer kind
    obtain ⟨y, rfl⟩ := exists_of_integer ((kind_eq_of_same held).symm.trans kind)
    obtain rfl : x = y := BitVec.eq_of_toNat_eq (of_decide_eq_true (Bool.and_eq_true_iff.mp held).2)
    exact decide_eq_true (congrArg some Std.ReflOrd.compare_self)
  · exact held

/-- The type of a value without floating-point numbers is not one of theirs. -/
theorem Discrete.ty_ne {v : Value} (discrete : Discrete v) : v.ty ≠ .float ∧ v.ty ≠ .double := by
  cases discrete <;> exact ⟨nofun, nofun⟩

section Laws
variable {a b : Value} {t : Ty} (keyedA : a.Keyed) (keyedB : b.Keyed) (discrete : Discrete a)
  (held : same a b = true) (joined : Ty.join? a.ty b.ty = some t)

theorem cast_int_of_counts {v : Value} {n : Int} (counts : v.toInteger? = some n) :
    cast .int v = .ok (ofInt .int n) := by
  rw [cast_scalar, castScalar, toScalar?, counts]
  rfl

include keyedA keyedB discrete held joined

/-- What is the same is equal, if it can be compared, and the casts change both or neither. -/
theorem equal_of_same {answer : Bool} (answered : equal a b = .ok answer)
    (unmoved : a = b ∨ Unmoved a.ty a ∧ Unmoved b.ty b) : answer = true := by
  obtain ⟨apart, -⟩ | ⟨u, l, r, joined', castLeft, castRight, rfl⟩ := equal_eq_ok_iff.mp answered
  · cases apart.symm.trans joined
  cases joined'.symm.trans joined
  obtain ⟨own, own'⟩ | ⟨rfl, n, countA, countB⟩ := meeting_of_same held joined
  · have alike : same l r = true := by
      have keyedL := keyed_of_settled (settled_of_cast castLeft)
      have keyedR := keyed_of_settled (settled_of_cast castRight)
      rcases unmoved with rfl | ⟨first, second⟩
      · cases castLeft.symm.trans castRight
        exact same_refl keyedL
      · rw [own] at first
        rw [own'] at second
        exact (same_congr keyedA keyedL keyedB keyedR (first l castLeft) (second r castRight)).trans
          held
    have kind := kind_of_fits (fits_of_cast castLeft)
    obtain ⟨single, double⟩ := discrete.ty_ne
    exact agree_of_same kind (own ▸ single) (own ▸ double) alike
  · cases castLeft.symm.trans (cast_int_of_counts countA)
    cases castRight.symm.trans (cast_int_of_counts countB)
    exact decide_eq_true (congrArg some Std.ReflOrd.compare_self)

/-- Types that tell all about two values that are the same let them be compared, and be equal. -/
theorem equal_of_told (toldA : Told a) (toldB : Told b) (discreteB : Discrete b) :
    equal a b = .ok true := by
  obtain ⟨l, r, castLeft, castRight⟩ : ∃ l r, cast t a = .ok l ∧ cast t b = .ok r := by
    obtain ⟨rfl, own⟩ | ⟨rfl, n, countA, countB⟩ := meeting_of_same held joined
    · obtain ⟨l, castLeft⟩ := exists_cast_own toldA.typed toldA.complete
      obtain ⟨r, castRight⟩ := exists_cast_own toldB.typed toldB.complete
      rw [own] at castRight
      exact ⟨l, r, castLeft, castRight⟩
    · exact ⟨_, _, cast_int_of_counts countA, cast_int_of_counts countB⟩
  have answered := equal_of_casts joined castLeft castRight
  have unmoved := And.intro (unmoved_own toldA.typed toldA.complete keyedA discrete)
    (unmoved_own toldB.typed toldB.complete keyedB discreteB)
  rw [answered, equal_of_same keyedA keyedB discrete held joined answered (.inr unmoved)]

end Laws

theorem compareSlots_eq (a b : Value) : compareSlots .eq (some a) (some b) = equal a b := by
  cases answer : equal a b with
  | error e => rw [compareSlots, answer]; rfl
  | ok held => rw [compareSlots, answer]; cases held <;> rfl

theorem compareSlots_ne (a b : Value) :
    compareSlots .ne (some a) (some b) = (! ·) <$> compareSlots .eq (some a) (some b) := by
  rw [compareSlots_eq]
  cases answer : equal a b with
  | error e => rw [compareSlots, answer]; rfl
  | ok held => rw [compareSlots, answer]; cases held <;> rfl

/-- The laws of equality. Inequality is its opposite, and it is the same both ways round. It fails just
where a cast to the joint type does, so not for values that stand in for those of that type. And it holds
of what is the same and has a joint type, if declared types tell all there is, or else if it can be asked
at all and the two are one, or are not moved by a cast to their types. -/
theorem equality_laws (a b : Value) :
    compareSlots .ne (some a) (some b) = (! ·) <$> compareSlots .eq (some a) (some b) ∧
    (∀ held, compareSlots .eq (some a) (some b) = .ok held ↔
      compareSlots .eq (some b) (some a) = .ok held) ∧
    ((∃ held, compareSlots .eq (some a) (some b) = .ok held) ↔
      ∀ t ∈ Ty.join? a.ty b.ty, (∃ l, cast t a = .ok l) ∧ ∃ r, cast t b = .ok r) ∧
    ((∀ t ∈ Ty.join? a.ty b.ty, StandsIn t a ∧ StandsIn t b) →
      ∃ held, compareSlots .eq (some a) (some b) = .ok held) ∧
    (same a b = true → a.Keyed → b.Keyed → Discrete a → Discrete b → Ty.join? a.ty b.ty ≠ none →
      (Told a → Told b → compareSlots .eq (some a) (some b) = .ok true) ∧
      ∀ held, compareSlots .eq (some a) (some b) = .ok held →
        a = b ∨ Unmoved a.ty a ∧ Unmoved b.ty b → held = true) := by
  refine ⟨compareSlots_ne a b, ?_⟩
  simp only [compareSlots_eq]
  refine ⟨fun held => ⟨equal_comm, equal_comm⟩, exists_equal_iff, fun stand => ?_, ?_⟩
  · refine exists_equal_iff.mpr fun t joined => ?_
    exact exists_casts_of_join joined (stand t joined).1 (stand t joined).2
  · intro held keyedA keyedB discreteA discreteB meet
    obtain ⟨t, joined⟩ := Option.ne_none_iff_exists'.mp meet
    exact ⟨fun toldA toldB => equal_of_told keyedA keyedB discreteA held joined toldA toldB discreteB,
      fun answer => equal_of_same keyedA keyedB discreteA held joined⟩

/-- Two maps with the same pairs in another order. -/
theorem equality_laws_of_maps :
    let first : Value := .map (some .int) (some .string)
      [(.integer .int 1, some (.string "x")), (.integer .int 2, none)]
    let second : Value := .map (some .int) (some .string)
      [(.integer .int 2, none), (.integer .int 1, some (.string "x"))]
    same first second = true ∧ Ty.join? first.ty second.ty ≠ none ∧
      compareSlots .eq (some first) (some second) = .ok true := by
  intro first second
  have held : same first second = true := rfl
  have meet : Ty.join? first.ty second.ty ≠ none := nofun
  have complete : first.ty.isComplete = true := rfl
  have toldFirst : Told first := told_of_cast complete (v := first) rfl
  have toldSecond : Told second := told_of_cast complete (v := second) rfl
  have number (n : BitVec 32) : Discrete (.integer .int n) := .integer .int n
  have texts : ∀ v ∈ some (Value.string "x"), Discrete v := by
    rintro v ⟨⟩
    exact .string "x"
  have discreteFirst : Discrete first :=
    .map (List.forall_mem_cons.mpr ⟨number 1, List.forall_mem_singleton.mpr (number 2)⟩)
      (List.forall_mem_cons.mpr ⟨texts, List.forall_mem_singleton.mpr nofun⟩)
  have discreteSecond : Discrete second :=
    .map (List.forall_mem_cons.mpr ⟨number 2, List.forall_mem_singleton.mpr (number 1)⟩)
      (List.forall_mem_cons.mpr ⟨nofun, List.forall_mem_singleton.mpr texts⟩)
  obtain ⟨-, -, -, -, reflexive⟩ := equality_laws first second
  exact ⟨held, meet, (reflexive held (by decide) (by decide) discreteFirst discreteSecond meet).1
    toldFirst toldSecond⟩

/-- Without declared types that tell what there is, what is the same cannot be compared, or not be
found equal: no type is known for the elements of an empty list, lists of shorts and of other integers
do not meet, and lists that meet as lists may have been joined to other contents. -/
theorem not_equal_of_undeclared :
    let empty (element : Option Ty) : Value := .list element []
    let beside (other : Value) : Value := .list none [some (empty (some .int)), some other]
    same (empty none) (empty none) = true ∧
      compareSlots .eq (some (empty none)) (some (empty none)) =
        .error (.incompatible (.ty (.list none)) (.list none)) ∧
      same (empty (some .short)) (empty (some .int)) = true ∧
      compareSlots .eq (some (empty (some .short))) (some (empty (some .int))) = .ok false ∧
      same (beside (empty (some .int))) (beside (empty (some .string))) = true ∧
      compareSlots .eq (some (beside (empty (some .int)))) (some (beside (empty (some .string)))) =
        .ok false :=
  ⟨rfl, rfl, rfl, rfl, rfl, rfl⟩

end Value
end Immediate
