import Immediate.Proofs.Folding
import Immediate.Proofs.Keys
import Immediate.Proofs.LeastCommon
import Immediate.Proofs.Machine
import Immediate.Proofs.Settling
import Immediate.Proofs.Streams
/-! Values rebuilt from literals. A value of integers and texts has code that puts it together from
them. Since nothing in it is declared but the types of what it holds, the joint types that literals
take are the declared ones, and the casts to them change nothing: the value is settled in its type. -/
namespace Immediate

open Outcome

namespace Value

/-- Slots that hold values of one type and nothing else, and at least one of them. -/
structure Uniform (t : Ty) (slots : List Slot) : Prop where
  each : ∀ slot ∈ slots, ∀ v ∈ slot, v.ty = t
  held : ∃ v, some v ∈ slots

/-- A value of integers and texts whose containers declare the types of what they hold. Entries miss
no half, maps and sequences hold some value that is not null, keys are apart, and sequences do not
hold entries: a literal of those is a map. -/
inductive Composed : Value → Prop where
  | integer (width : Width) (n : BitVec width.bits) : Composed (.integer width n)
  | string (s : String) : Composed (.string s)
  | entry {key value : Value} (first : Composed key) (second : Composed value) :
      Composed (.entry (some key.ty) (some value.ty) (some key) (some value))
  | list {t : Ty} {items : List Slot} (uniform : Uniform t items) (noEntries : t.kind ≠ .entry)
      (contents : ∀ slot ∈ items, ∀ v ∈ slot, Composed v) : Composed (.list (some t) items)
  | iterator {t : Ty} {items : List Slot} (uniform : Uniform t items) (noEntries : t.kind ≠ .entry)
      (contents : ∀ slot ∈ items, ∀ v ∈ slot, Composed v) : Composed (.iterator (some t) items)
  | map {keyTy valueTy : Ty} {pairs : List (Value × Slot)}
      (keyTys : ∀ pair ∈ pairs, pair.1.ty = keyTy) (uniform : Uniform valueTy (pairs.map (·.2)))
      (apart : KeysApart pairs) (keys : ∀ pair ∈ pairs, Composed pair.1)
      (values : ∀ pair ∈ pairs, ∀ v ∈ pair.2, Composed v) :
      Composed (.map (some keyTy) (some valueTy) pairs)

mutual

/-- The code of the literal that a value is written as. -/
def code : Value → Code
  | .list _ items => (slotCodes items).flatten ++ [.list items.length]
  | .iterator _ items => (slotCodes items).flatten ++ [.list items.length, .call .iter 1]
  | .map _ _ pairs => (pairCodes pairs).flatten ++ [.list pairs.length]
  | .entry _ _ key value => slotCode key ++ slotCode value ++ [.entry]
  | v => [.constant (some v)]

/-- The code of what a slot is written as. -/
def slotCode : Option Value → Code
  | none => [.constant none]
  | some v => v.code

/-- The codes of a sequence's slots. -/
def slotCodes : List (Option Value) → List Code
  | [] => []
  | item :: rest => slotCode item :: slotCodes rest

/-- The codes of a map's pairs, each like an entry. -/
def pairCodes : List (Value × Option Value) → List Code
  | [] => []
  | (key, value) :: rest => (key.code ++ slotCode value ++ [.entry]) :: pairCodes rest

end

/-- The code of a pair, which is that of an entry. -/
def pairCode (pair : Value × Slot) : Code := pair.1.code ++ slotCode pair.2 ++ [.entry]

theorem slotCodes_eq (items : List Slot) : slotCodes items = items.map slotCode := by
  induction items with
  | nil => rfl
  | cons item rest ih => rw [slotCodes, ih, List.map_cons]

theorem pairCodes_eq (pairs : List (Value × Slot)) : pairCodes pairs = pairs.map pairCode := by
  induction pairs with
  | nil => rfl
  | cons pair rest ih => rw [pairCodes, ih, List.map_cons, pairCode]

/-! ### What literals spell -/

theorem Uniform.ne_nil {t : Ty} {slots : List Slot} (uniform : Uniform t slots) : slots ≠ [] := by
  obtain ⟨v, inside⟩ := uniform.held
  exact List.ne_nil_of_mem inside

theorem jointTy_of_uniform {t : Ty} {slots : List Slot} (uniform : Uniform t slots) :
    jointTy (slots.filterMap id) = .ok (some t) := by
  refine jointTy_of_each (fun v member => ?_) ?_
  · obtain ⟨slot, inside, held⟩ := List.mem_filterMap.mp member
    exact uniform.each slot inside v held
  · obtain ⟨v, inside⟩ := uniform.held
    exact List.ne_nil_of_mem (List.mem_filterMap.mpr ⟨some v, inside, rfl⟩)

theorem Composed.keyed {v : Value} (composed : Composed v) : v.Keyed := by
  induction composed with
  | integer width n => exact .integer width n
  | string s => exact .string s
  | entry first second firstIH secondIH =>
    exact keyed_entry_iff.mpr ⟨slotKeyed_some firstIH, slotKeyed_some secondIH⟩
  | list uniform noEntries contents ih => exact .list ih
  | iterator uniform noEntries contents ih => exact .iterator ih
  | map keyTys uniform apart keys values keysIH valuesIH => exact .map apart keysIH valuesIH

theorem spelledApart_of_composed {pairs : List (Value × Slot)} (apart : KeysApart pairs)
    (keys : ∀ pair ∈ pairs, Composed pair.1) (values : ∀ pair ∈ pairs, ∀ v ∈ pair.2, Composed v) :
    SpelledApart pairs :=
  PairsKeyed.apart_comm ⟨apart, fun pair member => (keys pair member).keyed,
    fun pair member v held => (values pair member v held).keyed⟩

/-- A composed value is settled in its type. -/
theorem Composed.settled {v : Value} (composed : Composed v) : Settled v.ty v := by
  induction composed with
  | integer width n =>
    refine .scalar (congrArg some ?_)
    rw [ofInt, BitVec.ofInt_toInt]
  | string s => exact .scalar rfl
  | entry first second firstIH secondIH =>
    refine .entry (fun _ known => known) (fun _ known => known) ?_ ?_
      (fun unset => absurd unset (Option.some_ne_none _))
      fun unset => absurd unset (Option.some_ne_none _)
    · rintro t ⟨⟩ v ⟨⟩
      exact firstIH
    · rintro t ⟨⟩ v ⟨⟩
      exact secondIH
  | list uniform noEntries contents ih =>
    refine .list (fun _ known => known) fun slot member v held => ?_
    rw [← uniform.each slot member v held]
    exact ih slot member v held
  | iterator uniform noEntries contents ih =>
    refine .iterator (fun _ known => known) fun slot member v held => ?_
    rw [← uniform.each slot member v held]
    exact ih slot member v held
  | map keyTys uniform apart keys values keysIH valuesIH =>
    have spelled := spelledApart_of_composed apart keys values
    refine .map (fun _ known => known) (fun _ known => known) spelled (fun pair member => ?_) ?_
      fun unset => absurd unset (Option.some_ne_none _)
    · rw [← keyTys pair member]
      exact keysIH pair member
    · rintro t ⟨⟩ pair member v held
      rw [← uniform.each pair.2 (List.mem_map_of_mem member) v held]
      exact valuesIH pair member v held

theorem castSlot_of_settled {t : Ty} {slot : Slot} (settled : ∀ v ∈ slot, Settled t v) :
    castSlot (some t) slot = .ok slot := by
  refine castSlot_of_each ?_
  rintro u ⟨⟩ v held
  exact cast_of_settled (settled v held)

private theorem mapM_halves_of_none {items : List Slot} {slot : Slot} (member : slot ∈ items)
    (other : halves? slot = none) : items.mapM halves? = none := by
  induction items with
  | nil => cases member
  | cons item rest ih =>
    rw [List.mapM_cons]
    rcases List.mem_cons.mp member with rfl | later
    · rw [other]
      rfl
    · rw [ih later]
      cases halves? item <;> rfl

/-- A literal with something other than an entry in it is a list. -/
theorem ofLiteral_of_uniform {t : Ty} {items : List Slot} (uniform : Uniform t items)
    (noEntries : t.kind ≠ .entry) (contents : ∀ slot ∈ items, ∀ v ∈ slot, Settled t v) :
    ofLiteral items = .ok (.list (some t) items) := by
  obtain ⟨v, held⟩ := uniform.held
  have other : halves? (some v) = none := by
    have ty := uniform.each _ held v rfl
    cases v with
    | entry => exact absurd (congrArg Ty.kind ty).symm noEntries
    | _ => rfl
  have whole := mapM_halves_of_none held other
  have casts := castItems_of_each fun slot member w inside =>
    cast_of_settled (contents slot member w inside)
  unfold ofLiteral
  split
  · rename_i entries
    cases whole.symm.trans entries
  · rw [jointTy_of_uniform uniform, ok_bind]
    dsimp only
    rw [casts]
    rfl

section Pairs

variable {keyTy valueTy : Ty} {pairs : List (Value × Slot)}
  (keyTys : ∀ pair ∈ pairs, pair.1.ty = keyTy) (uniform : Uniform valueTy (pairs.map (·.2)))
  (apart : SpelledApart pairs) (keys : ∀ pair ∈ pairs, Settled keyTy pair.1)
  (values : ∀ pair ∈ pairs, ∀ v ∈ pair.2, Settled valueTy v)

include uniform in
theorem Uniform.pairs_ne_nil : pairs ≠ [] := fun none =>
  uniform.ne_nil (List.map_eq_nil_iff.mpr none)

include keyTys uniform apart keys values

/-- Halves of entries with keys that are apart make the map of them. -/
theorem ofEntryLiteral_of_uniform :
    ofEntryLiteral (pairs.map fun pair => (some pair.1, pair.2)) =
      .ok (.map (some keyTy) (some valueTy) pairs) := by
  have joinedKeys :
      jointTy ((pairs.map fun pair => (some pair.1, pair.2)).filterMap (·.1)) = .ok (some keyTy) := by
    rw [List.filterMap_map]
    change jointTy (pairs.filterMap fun pair => some pair.1) = _
    rw [List.filterMap_eq_map']
    refine jointTy_of_each (fun v member => ?_) ?_
    · obtain ⟨pair, inside, rfl⟩ := List.mem_map.mp member
      exact keyTys pair inside
    · exact fun none => uniform.pairs_ne_nil (List.map_eq_nil_iff.mp none)
  have joinedValues :
      jointTy ((pairs.map fun pair => (some pair.1, pair.2)).filterMap (·.2)) =
        .ok (some valueTy) := by
    have joined := jointTy_of_uniform uniform
    rw [List.filterMap_map] at joined ⊢
    exact joined
  have inserted : insertAll [] pairs = pairs :=
    insertAll_of_apart (fun _ impossible => absurd impossible List.not_mem_nil) apart
  rw [ofEntryLiteral, joinedKeys, ok_bind, joinedValues, ok_bind, List.mapM_map,
    mapM_of_each (g := id) (fun pair member => ?_), ok_bind, List.map_id, inserted]
  · rfl
  · have key : castSlot (some keyTy) (some pair.1) = .ok (some pair.1) :=
      castSlot_of_settled fun v held => Option.some.inj held ▸ keys pair member
    have value := castSlot_of_settled (values pair member)
    simp only [Function.comp_apply, key, value, ok_bind]
    rfl

/-- A literal of entries alone is a map. -/
theorem ofLiteral_pairEntries :
    ofLiteral (pairs.map fun pair => some (ofHalves (some pair.1) pair.2)) =
      .ok (.map (some keyTy) (some valueTy) pairs) := by
  have halves : (pairs.map fun pair => some (ofHalves (some pair.1) pair.2)).mapM halves? =
      some (pairs.map fun pair => (some pair.1, pair.2)) := by
    rw [List.mapM_map]
    exact List.mapM_pure
  rw [ofLiteral_of_halves (mt List.map_eq_nil_iff.mp uniform.pairs_ne_nil) halves]
  exact ofEntryLiteral_of_uniform keyTys uniform apart keys values

end Pairs

end Value

namespace Code

variable {code : Code} {slot : Slot}

/-- Code that in every context puts one value, or null, on whatever the stack holds. -/
def Yields (code : Code) (slot : Slot) : Prop :=
  ∀ context stack, runOn context stack code = .ok (.single slot :: stack)

theorem yields_constant (slot : Slot) : Yields [.constant slot] slot := fun _ _ => rfl

theorem Yields.execute (yields : Yields code slot) (context : Context) :
    code.execute context = .ok (.single slot) := by
  rw [Code.execute, yields context []]
  rfl

/-- An instruction behind code for one value takes it. -/
theorem Yields.then {i : Instruction} {out : Slot} (yields : Yields code slot)
    (takes : ∀ context stack, i.step context (.single slot :: stack) = .ok (.single out :: stack)) :
    Yields (code ++ [i]) out := by
  intro context stack
  rw [runOn_append, yields context stack, ok_bind, runOn_cons, takes]
  rfl

theorem Yields.entry {key value : Slot} (first : Yields code key) {more : Code}
    (second : Yields more value) :
    Yields (code ++ more ++ [.entry]) (some (Value.ofHalves key value)) := by
  intro context stack
  rw [runOn_append, runOn_append, first context stack, ok_bind, second, ok_bind]
  rfl

/-- Code for several values leaves them with the last one on top. -/
theorem runOn_flatten {α : Type} {items : List α} {codes : α → Code} {slots : α → Slot}
    (each : ∀ item ∈ items, Yields (codes item) (slots item)) (context : Context) (stack : Stack) :
    runOn context stack (items.map codes).flatten =
      .ok ((items.map fun item => .single (slots item)).reverse ++ stack) := by
  induction items generalizing context stack with
  | nil => rfl
  | cons item rest ih =>
    rw [List.map_cons, List.flatten_cons, runOn_append, each item List.mem_cons_self, ok_bind,
      ih fun other member => each other (List.mem_cons_of_mem item member)]
    simp

/-- Code for several values and the instruction that makes a literal of them. -/
theorem yields_list {α : Type} {items : List α} {codes : α → Code} {slots : α → Slot} {v : Value}
    (each : ∀ item ∈ items, Yields (codes item) (slots item))
    (made : Value.ofLiteral (items.map slots) = .ok v) :
    Yields ((items.map codes).flatten ++ [.list items.length]) (some v) := by
  intro context stack
  have all : (Instruction.list items.length).consumes =
      (items.map fun item => Operand.single (slots item)).reverse.length := by
    rw [List.length_reverse, List.length_map]
    rfl
  have combined (context : Context) : (Instruction.list items.length).combine context
      (items.map fun item => .single (slots item)) = .ok (.single (some v)) := by
    have tuple := Operand.tuples_single (items.map slots)
    rw [List.map_map] at tuple
    change Operand.fanOut _ (items.map (.single ∘ slots)) = _
    rw [Operand.fanOut, tuple]
    change (Value.ofLiteral (items.map slots) >>= _) = _
    rw [made]
    rfl
  rw [runOn_append, runOn_flatten each, ok_bind, runOn_cons, Instruction.step_operands _ all,
    List.reverse_reverse, combined]
  rfl

end Code

namespace Value

private theorem slotCode_yields {slot : Slot}
    (each : ∀ v ∈ slot, v.code.Yields (some v)) : (slotCode slot).Yields slot := by
  cases slot with
  | none => exact Code.yields_constant none
  | some v => exact each v rfl

private theorem slotCodes_yield {t : Ty} {items : List Slot} (uniform : Uniform t items)
    (noEntries : t.kind ≠ .entry) (contents : ∀ slot ∈ items, ∀ v ∈ slot, Composed v)
    (each : ∀ slot ∈ items, ∀ v ∈ slot, v.code.Yields (some v)) :
    Code.Yields ((slotCodes items).flatten ++ [.list items.length])
      (some (.list (some t) items)) := by
  have settled (slot : Slot) (member : slot ∈ items) (v : Value) (held : v ∈ slot) :
      Settled t v := uniform.each slot member v held ▸ (contents slot member v held).settled
  have yields (slot : Slot) (member : slot ∈ items) :
      (slotCode slot).Yields (id slot) := slotCode_yields (each slot member)
  rw [slotCodes_eq]
  refine Code.yields_list yields ?_
  rw [List.map_id]
  exact ofLiteral_of_uniform uniform noEntries settled

/-- A composed value is what its code yields, wherever the code is run. -/
theorem Composed.yields {v : Value} (composed : Composed v) :
    v.code.Yields (some v) := by
  induction composed with
  | integer | string => exact Code.yields_constant _
  | entry first second firstIH secondIH => exact firstIH.entry secondIH
  | list uniform noEntries contents ih => exact slotCodes_yield uniform noEntries contents ih
  | @iterator t items uniform noEntries contents ih =>
    have list := slotCodes_yield uniform noEntries contents ih
    have takes (context : Context) (stack : Stack) : (Instruction.call .iter 1).step context
        (.single (some (.list (some t) items)) :: stack) =
          .ok (.single (some (.iterator (some t) items)) :: stack) := rfl
    have iterated := list.then takes
    rwa [List.append_assoc] at iterated
  | @map keyTy valueTy pairs keyTys uniform apart keys values keysIH valuesIH =>
    have settledKeys (pair : Value × Slot) (member : pair ∈ pairs) : Settled keyTy pair.1 :=
      keyTys pair member ▸ (keys pair member).settled
    have settledValues (pair : Value × Slot) (member : pair ∈ pairs) (v : Value)
        (held : v ∈ pair.2) : Settled valueTy v :=
      uniform.each pair.2 (List.mem_map_of_mem member) v held ▸ (values pair member v held).settled
    rw [code, pairCodes_eq]
    have spelled := spelledApart_of_composed apart keys values
    refine Code.yields_list (fun pair member => ?_)
      (ofLiteral_pairEntries keyTys uniform spelled settledKeys settledValues)
    exact (keysIH pair member).entry (slotCode_yields (valuesIH pair member))

end Value

end Immediate
