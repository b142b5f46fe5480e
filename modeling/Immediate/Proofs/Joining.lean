import Immediate.Proofs.Evaluation
import Immediate.Proofs.StandingIn
/-! Joining values. Operators, comparisons, the extremes of two values and literals bring values to a
type on all their chains. Values that can stand in for those of that type are never refused there, so
what fails fails for a reason of its own: a kind without the operator or without an order, a division
by zero, a missing key. -/
namespace Immediate.Value

open Outcome

/-- An operator finds its operands cast. -/
theorem operate_of_operable {op : BinaryOp} {left right : Value} {t : Ty}
    (found : Ty.operable? left.ty right.ty [op.capability] = some t) (first : StandsIn t left)
    (second : StandsIn t right) :
    ∃ l r, cast t left = .ok l ∧ cast t right = .ok r ∧
      operate op left right = operateJoined op l r := by
  obtain ⟨onLeft, onRight⟩ := Ty.mem_chains_of_operable found
  obtain ⟨l, castLeft⟩ := exists_cast_of_mem_chain onLeft first
  obtain ⟨r, castRight⟩ := exists_cast_of_mem_chain onRight second
  refine ⟨l, r, castLeft, castRight, ?_⟩
  simp only [operate, found, castLeft, castRight, ok_bind]

section Joined
variable {left right : Value} {t : Ty}

theorem exists_casts_of_join (found : Ty.join? left.ty right.ty = some t) (first : StandsIn t left)
    (second : StandsIn t right) : (∃ l, cast t left = .ok l) ∧ ∃ r, cast t right = .ok r := by
  obtain ⟨onLeft, onRight⟩ := Ty.mem_chains_of_join found
  exact ⟨exists_cast_of_mem_chain onLeft first, exists_cast_of_mem_chain onRight second⟩

theorem exists_equal (found : Ty.join? left.ty right.ty = some t) (first : StandsIn t left)
    (second : StandsIn t right) : ∃ held, equal left right = .ok held := by
  obtain ⟨⟨l, castLeft⟩, r, castRight⟩ := exists_casts_of_join found first second
  simp only [equal, found, castLeft, castRight, ok_bind]
  split <;> exact ⟨_, rfl⟩

/-- Only a kind without an order has none. -/
theorem unordered_of_order {e : EvalError} (found : Ty.join? left.ty right.ty = some t)
    (first : StandsIn t left) (second : StandsIn t right)
    (failed : order left right = .error e) : e = .incompatible (.ordered t) t := by
  obtain ⟨⟨l, castLeft⟩, r, castRight⟩ := exists_casts_of_join found first second
  simp only [order, found, castLeft, castRight, ok_bind] at failed
  split at failed
  · cases failed
  · cases failed
  · split at failed
    · cases failed
    · exact (Except.error.inj failed).symm

theorem unordered_of_compareSlots {op : CompareOp} {e : EvalError}
    (found : Ty.join? left.ty right.ty = some t) (first : StandsIn t left)
    (second : StandsIn t right) (failed : compareSlots op (some left) (some right) = .error e) :
    op.isEquality = false ∧ e = .incompatible (.ordered t) t := by
  simp only [compareSlots] at failed
  split at failed
  · obtain ⟨held, equal⟩ := exists_equal found first second
    rw [equal] at failed
    cases failed
  · rename_i other
    refine ⟨eq_false_of_ne_true other, ?_⟩
    cases ordered : order left right with
    | error e' =>
      rw [ordered] at failed
      cases failed
      exact unordered_of_order found first second ordered
    | ok found =>
      rw [ordered] at failed
      cases failed

theorem unordered_of_pick {wanted : Ordering → Bool} {e : EvalError}
    (found : Ty.join? left.ty right.ty = some t) (first : StandsIn t left)
    (second : StandsIn t right) (failed : Builtin.pick wanted left right = .error e) :
    e = .incompatible (.ordered t) t := by
  simp only [Builtin.pick, found] at failed
  cases ordered : order left right with
  | error e' =>
    rw [ordered] at failed
    cases failed
    exact unordered_of_order found first second ordered
  | ok ordering =>
    obtain ⟨⟨l, castLeft⟩, r, castRight⟩ := exists_casts_of_join found first second
    rw [ordered, ok_bind] at failed
    split at failed
    · rw [castLeft] at failed
      cases failed
    · rw [castRight] at failed
      cases failed

end Joined

/-! ### Literals -/

/-- A literal that is not made of entries alone is the list of its elements, cast. -/
theorem exists_ofLiteral {items : List Slot} {t : Ty} (other : items.mapM halves? = none)
    (found : jointTy (items.filterMap id) = .ok (some t))
    (told : ∀ slot ∈ items, ∀ v ∈ slot, Told v) (lend : ∀ slot ∈ items, ∀ v ∈ slot, v.Lends t) :
    ∃ out, castItems t items = .ok out ∧ ofLiteral items = .ok (.list (some t) out) := by
  have contents (slot : Slot) (member : slot ∈ items) (v : Value) (held : v ∈ slot) :
      v ∈ items.filterMap id := List.mem_filterMap.mpr ⟨slot, member, held⟩
  have onChain := (mem_chains_of_jointTy found).2 t rfl
  obtain ⟨out, cast⟩ := exists_castItems fun slot member v held =>
    exists_cast_of_mem_chain (onChain v (contents slot member v held))
      ⟨told slot member v held, lend slot member v held⟩
  refine ⟨out, cast, ?_⟩
  unfold ofLiteral
  split
  · rename_i entries
    cases other.symm.trans entries
  · rw [found, ok_bind]
    dsimp only
    rw [cast]
    rfl

/-- A literal made of entries alone spells a map, unless a key is missing. -/
theorem nullKey_of_ofLiteral {items : List Slot} {pairs : List (Slot × Slot)}
    {keyTy valueTy : Option Ty} {e : EvalError} (entries : items.mapM halves? = some pairs)
    (foundKey : jointTy (pairs.filterMap (·.1)) = .ok keyTy)
    (foundValue : jointTy (pairs.filterMap (·.2)) = .ok valueTy)
    (told : ∀ slot ∈ items, ∀ v ∈ slot, Told v)
    (lendKeys : ∀ t ∈ keyTy, ∀ pair ∈ pairs, ∀ v ∈ pair.1, v.Lends t)
    (lendValues : ∀ t ∈ valueTy, ∀ pair ∈ pairs, ∀ v ∈ pair.2, v.Lends t)
    (failed : ofLiteral items = .error e) : e = .nullOperand .mapLiteralKey := by
  have halves : ∀ pair ∈ pairs, (∀ v ∈ pair.1, Told v) ∧ ∀ v ∈ pair.2, Told v := by
    intro pair member
    obtain ⟨ownKey, ownValue, inside⟩ := entry_of_mem_halves entries pair member
    exact told_halves (told _ inside _ rfl)
  have casts : ∀ pair ∈ pairs, (∃ key, castSlot keyTy pair.1 = .ok key) ∧
      ∃ value, castSlot valueTy pair.2 = .ok value := by
    intro pair member
    refine ⟨exists_castSlot fun t known v held => ?_, exists_castSlot fun t known v held => ?_⟩
    · have onChain := (mem_chains_of_jointTy foundKey).2 t known v
        (List.mem_filterMap.mpr ⟨pair, member, held⟩)
      exact exists_cast_of_mem_chain onChain
        ⟨(halves pair member).1 v held, lendKeys t known pair member v held⟩
    · have onChain := (mem_chains_of_jointTy foundValue).2 t known v
        (List.mem_filterMap.mpr ⟨pair, member, held⟩)
      exact exists_cast_of_mem_chain onChain
        ⟨(halves pair member).2 v held, lendValues t known pair member v held⟩
  cases items with
  | nil => cases failed
  | cons item rest =>
    simp only [ofLiteral, entries, ofEntryLiteral, foundKey, foundValue, ok_bind] at failed
    rcases bind_eq_error.mp failed with failed | ⟨out, -, impossible⟩
    · obtain ⟨⟨key, value⟩, member, failed⟩ := exists_of_mapM_error failed
      obtain ⟨⟨newKey, castKey⟩, newValue, castValue⟩ := casts _ member
      simp only [castKey, castValue, ok_bind] at failed
      cases newKey with
      | none => exact (Except.error.inj failed).symm
      | some newKey => cases failed
    · cases impossible

/-! ### Soundness of lowering -/

/-- Values that can stand in for those of a type on their chains are cast to it, on their own and as
operands, as the sides of a comparison, as candidates for an extreme and as the elements of a
literal. -/
theorem cast_of_lowered :
    (∀ {v : Value} {t : Ty}, t ∈ v.ty.chain → StandsIn t v → ∃ w, cast t v = .ok w) ∧
    (∀ {op : BinaryOp} {left right : Value} {t : Ty},
      Ty.operable? left.ty right.ty [op.capability] = some t → StandsIn t left → StandsIn t right →
        ∃ l r, cast t left = .ok l ∧ cast t right = .ok r ∧
          operate op left right = operateJoined op l r) ∧
    (∀ {left right : Value} {t : Ty} {e : EvalError}, Ty.join? left.ty right.ty = some t →
      StandsIn t left → StandsIn t right →
        (∀ op, compareSlots op (some left) (some right) = .error e →
          op.isEquality = false ∧ e = .incompatible (.ordered t) t) ∧
        ∀ wanted, Builtin.pick wanted left right = .error e → e = .incompatible (.ordered t) t) ∧
    ∀ {items : List Slot}, (∀ slot ∈ items, ∀ v ∈ slot, Told v) →
      (∀ {t : Ty}, items.mapM halves? = none → jointTy (items.filterMap id) = .ok (some t) →
        (∀ slot ∈ items, ∀ v ∈ slot, v.Lends t) →
          ∃ out, castItems t items = .ok out ∧ ofLiteral items = .ok (.list (some t) out)) ∧
      ∀ {pairs : List (Slot × Slot)} {keyTy valueTy : Option Ty} {e : EvalError},
        items.mapM halves? = some pairs → jointTy (pairs.filterMap (·.1)) = .ok keyTy →
        jointTy (pairs.filterMap (·.2)) = .ok valueTy →
        (∀ t ∈ keyTy, ∀ pair ∈ pairs, ∀ v ∈ pair.1, v.Lends t) →
        (∀ t ∈ valueTy, ∀ pair ∈ pairs, ∀ v ∈ pair.2, v.Lends t) →
          ofLiteral items = .error e → e = .nullOperand .mapLiteralKey := by
  refine ⟨exists_cast_of_mem_chain, operate_of_operable, ?_, ?_⟩
  · intro left right t e found first second
    exact ⟨fun op => unordered_of_compareSlots found first second,
      fun wanted => unordered_of_pick found first second⟩
  · intro items told
    exact ⟨fun other found lend => exists_ofLiteral other found told lend,
      fun entries foundKey foundValue lendKeys lendValues =>
        nullKey_of_ofLiteral entries foundKey foundValue told lendKeys lendValues⟩

/-- An iterator over an entry without a value lowers to a map, and is cast to it; to add it to a map
is to add that map. The two have no order. Numbers make a list of the wider kind, and an entry
without a key makes no map. -/
theorem cast_of_lowered_entries :
    let numbers : Ty := .map (some .int) (some .int)
    let one : Value := .integer .int 1#32
    let entry : Value := .entry none (some .int) (some one) none
    let walked : Value := .iterator (some (.entry (some .int) (some .int))) [some entry]
    let kept : Value := .map (some .int) (some .int) []
    let wide : Value := .integer .long 2#64
    let keyless : Value := .entry (some .int) none none (some one)
    (∃ w, cast numbers walked = .ok w) ∧
      (∃ l r, cast numbers walked = .ok l ∧ cast numbers kept = .ok r ∧
        operate .add walked kept = operateJoined .add l r) ∧
      compareSlots .lt (some walked) (some kept) =
        .error (.incompatible (.ordered numbers) numbers) ∧
      Builtin.pick (· == .lt) walked kept = .error (.incompatible (.ordered numbers) numbers) ∧
      (∃ out, castItems .long [some one, some wide] = .ok out ∧
        ofLiteral [some one, some wide] = .ok (.list (some .long) out)) ∧
      ofLiteral [some keyless] = .error (.nullOperand .mapLiteralKey) := by
  intro numbers one entry walked kept wide keyless
  have typedEntry : WellTyped entry := by
    refine .entry nofun ?_ ?_ nofun
    · rintro t ⟨⟩ v ⟨⟩
    · rintro v ⟨⟩
      exact .scalar rfl
  have typed : WellTyped walked := by
    refine .iterator ?_ ?_
    · rintro t ⟨⟩ slot member v held
      cases List.mem_singleton.mp member
      cases held
      exact ⟨fun _ known => known, fun _ known => known⟩
    · intro slot member v held
      cases List.mem_singleton.mp member
      cases held
      exact typedEntry
  have lends : walked.Lends numbers := by
    refine ⟨nofun, fun _ slot member => ?_⟩
    cases List.mem_singleton.mp member
    exact ⟨_, _, _, _, rfl⟩
  have stands : StandsIn numbers walked := ⟨⟨rfl, typed⟩, lends⟩
  have standsKept : StandsIn numbers kept := ⟨⟨rfl, .map nofun nofun nofun nofun⟩, trivial⟩
  have toldNumbers : ∀ slot ∈ [some one, some wide], ∀ v ∈ slot, Told v := by
    intro slot member v held
    rcases List.mem_pair.mp member with rfl | rfl <;> cases held <;> exact ⟨rfl, .scalar rfl⟩
  have lendNumbers : ∀ slot ∈ [some one, some wide], ∀ v ∈ slot, v.Lends .long := by
    intro slot member v held
    rcases List.mem_pair.mp member with rfl | rfl <;> cases held <;> exact trivial
  have toldKeyless : ∀ slot ∈ [some keyless], ∀ v ∈ slot, Told v := by
    intro slot member v held
    cases List.mem_singleton.mp member
    cases held
    refine ⟨rfl, .entry nofun nofun nofun ?_⟩
    rintro v ⟨⟩
    exact .scalar rfl
  have joined : Ty.join? walked.ty kept.ty = some numbers := by decide
  have operable : Ty.operable? walked.ty kept.ty [BinaryOp.add.capability] = some numbers := by
    decide
  obtain ⟨single, operands, sides, literals⟩ := cast_of_lowered
  refine ⟨single (by decide) stands, operands operable stands standsKept, ?_, ?_, ?_, ?_⟩
  · obtain ⟨e, failed⟩ : ∃ e, compareSlots .lt (some walked) (some kept) = .error e := ⟨_, rfl⟩
    rw [failed, ((sides joined stands standsKept).1 .lt failed).2]
  · obtain ⟨e, failed⟩ : ∃ e, Builtin.pick (· == .lt) walked kept = .error e := ⟨_, rfl⟩
    rw [failed, (sides joined stands standsKept).2 _ failed]
  · exact (literals toldNumbers).1 rfl rfl lendNumbers
  · obtain ⟨e, failed⟩ : ∃ e, ofLiteral [some keyless] = .error e := ⟨_, rfl⟩
    have entries : [some keyless].mapM halves? = some [(none, some one)] := rfl
    rw [failed, (literals toldKeyless).2 entries rfl rfl nofun ?_ failed]
    rintro t ⟨⟩ pair member v held
    cases List.mem_singleton.mp member
    cases held
    trivial

/-- An iterator with a null among its elements is no map, and one of 16-bit units no text, though
both are on the chains of their types. -/
theorem refused_on_chain :
    let walked : Value := .iterator (some (.entry (some .int) (some .int))) [none]
    let units : Value := .iterator (some .short) [some (.integer .short 97#16)]
    (Told walked ∧ .map (some .int) (some .int) ∈ walked.ty.chain ∧
      ∀ w, cast (.map (some .int) (some .int)) walked ≠ .ok w) ∧
    (Told units ∧ .string ∈ units.ty.chain ∧ ∀ w, cast .string units ≠ .ok w) := by
  intro walked units
  have typed : WellTyped walked := by
    refine .iterator ?_ ?_
    · rintro t ⟨⟩ slot member v held
      cases List.mem_singleton.mp member
      cases held
    · intro slot member v held
      cases List.mem_singleton.mp member
      cases held
  have typedUnits : WellTyped units := by
    refine .iterator ?_ ?_
    · rintro t ⟨⟩ slot member v held
      cases List.mem_singleton.mp member
      cases held
      rfl
    · intro slot member v held
      cases List.mem_singleton.mp member
      cases held
      exact .scalar rfl
  exact ⟨⟨⟨rfl, typed⟩, by decide, nofun⟩, ⟨rfl, typedUnits⟩, by decide, nofun⟩

end Immediate.Value
