import Immediate.Eval.Call
import Immediate.Proofs.Evaluation
import Immediate.Proofs.Stable
/-! Sums of texts, lists and maps. An operator casts its operands before it computes, and values of one
complete type come out of these casts as they were. So two such values always have a sum, which is of the
type again: the contents of both end to end, or the right map merged into the left one. Both ways of
grouping three of them give the same value. -/
namespace Immediate

theorem Text.units_append (s t : String) : Text.units (s ++ t) = Text.units s ++ Text.units t := by
  simp only [Text.units, String.toList_append, List.flatMap_append]

namespace Value

open Outcome

/-- The sums of two texts, of two lists and of two maps of one type. -/
inductive Summed : (left right sum : Value) → Prop where
  | texts (s t : String) : Summed (.string s) (.string t) (.string (s ++ t))
  | lists (own : Option Ty) (items more : List Slot) :
    Summed (.list own items) (.list own more) (.list own (items ++ more))
  | maps (ownKey ownValue : Option Ty) (pairs more : List (Value × Slot)) :
    Summed (.map ownKey ownValue pairs) (.map ownKey ownValue more)
      (.map ownKey ownValue (insertAll pairs more))

/-- The elements of one value followed by those of another are those of a third one, and the sizes that
the language gives for them add up. -/
def Concatenates (left right sum : Value) : Prop :=
  ∃ items more, left.elements? = some items ∧ right.elements? = some more ∧
    sum.elements? = some (items ++ more) ∧ Builtin.sizeOf left = .ok (int items.length) ∧
    Builtin.sizeOf right = .ok (int more.length) ∧
    Builtin.sizeOf sum = .ok (int (items.length + more.length))

/-- A map holds what two others hold together. Under the keys of the second one stands what stands there
in the second one, and its new keys come after those of the first one. -/
structure Merged (pairs more all : List (Value × Slot)) : Prop where
  held : ∀ key : Value, key.Keyed →
    ((lookup all key).isSome ↔ (lookup pairs key).isSome ∨ (lookup more key).isSome)
  taken : ∀ key : Value, key.Keyed → ∀ slot, lookup more key = some slot → lookup all key = some slot
  left : ∀ key : Value, key.Keyed → lookup more key = none → lookup all key = lookup pairs key
  order : all.map (·.1) =
    pairs.map (·.1) ++ (more.map (·.1)).filter fun key => (lookup pairs key).isNone

variable {t : Ty} {a b c : Value}

/-! ### Adding stable values -/

theorem supports_add_of_kind (kind : t.kind = .string ∨ t.kind = .list ∨ t.kind = .map) :
    t.supports [BinaryOp.add.capability] = true := by
  rcases kind with kind | kind | kind <;> (rw [Ty.supports, kind]; rfl)

/-- Values of one complete type reach the operator as they are. -/
theorem operate_of_stable {op : BinaryOp} (complete : t.isComplete = true)
    (supported : t.supports [op.capability] = true) (first : Stable t a) (second : Stable t b) :
    operate op a b = operateJoined op a b := by
  simp only [operate, first.ty_eq complete, second.ty_eq complete, Ty.operable?_self supported,
    first.cast_eq complete, second.cast_eq complete, ok_bind]

theorem stable_merged {key value : Ty} {pairs more : List (Value × Slot)}
    (first : Stable (.map (some key) (some value)) (.map (some key) (some value) pairs))
    (second : Stable (.map (some key) (some value)) (.map (some key) (some value) more)) :
    Stable (.map (some key) (some value)) (.map (some key) (some value) (insertAll pairs more)) := by
  have merged := (keyed_map_iff.mp first.keyed).merge (keyed_map_iff.mp second.keyed)
  obtain ⟨-, firstPairs⟩ := stable_map_iff.mp first
  obtain ⟨-, secondPairs⟩ := stable_map_iff.mp second
  have both := List.forall_mem_append.mpr ⟨firstPairs, secondPairs⟩
  refine stable_map_iff.mpr ⟨merged.apart, fun pair member => ?_⟩
  obtain ⟨⟨other, inside, sameKey⟩, another, within, sameSlot⟩ := mem_insertAll member
  rw [← sameKey, ← sameSlot]
  exact ⟨(both other inside).1, (both another within).2⟩

/-- Two values of one complete type of texts, lists or maps have a sum of that type. -/
theorem exists_sum (complete : t.isComplete = true)
    (kind : t.kind = .string ∨ t.kind = .list ∨ t.kind = .map) (first : Stable t a)
    (second : Stable t b) : ∃ sum, operate .add a b = .ok sum ∧ Summed a b sum ∧ Stable t sum := by
  rw [operate_of_stable complete (supports_add_of_kind kind) first second]
  cases t with
  | scalar s =>
    obtain rfl : s = .string := by
      rcases kind with kind | kind | kind <;> cases kind
      rfl
    obtain ⟨s, rfl⟩ := exists_of_stable_string first
    obtain ⟨u, rfl⟩ := exists_of_stable_string second
    exact ⟨_, rfl, .texts s u, stable_of_scalar rfl nofun⟩
  | list wanted =>
    obtain ⟨u, items, rfl, rfl⟩ := exists_of_stable_list complete first
    obtain ⟨_, more, ⟨⟩, rfl⟩ := exists_of_stable_list complete second
    exact ⟨_, rfl, .lists _ items more, stable_list_iff.mpr
      (List.forall_mem_append.mpr ⟨stable_list_iff.mp first, stable_list_iff.mp second⟩)⟩
  | map wanted wantedValue =>
    obtain ⟨key, value, pairs, rfl, rfl, rfl⟩ := exists_of_stable_map complete first
    obtain ⟨_, _, more, ⟨⟩, ⟨⟩, rfl⟩ := exists_of_stable_map complete second
    exact ⟨_, rfl, .maps _ _ pairs more, stable_merged first second⟩
  | iterator | entry => rcases kind with kind | kind | kind <;> cases kind

/-! ### Sums -/

theorem Summed.assoc {ab bc left right : Value} (keyedA : a.Keyed) (keyedB : b.Keyed)
    (keyedC : c.Keyed) (first : Summed a b ab) (second : Summed b c bc) (onLeft : Summed ab c left)
    (onRight : Summed a bc right) : left = right := by
  cases first with
  | texts s u =>
    cases second
    cases onLeft
    cases onRight
    rw [String.append_assoc]
  | lists own items more =>
    cases second
    cases onLeft
    cases onRight
    rw [List.append_assoc]
  | maps ownKey ownValue pairs more =>
    cases second
    cases onLeft
    cases onRight
    rw [insertAll_insertAll (keyed_map_iff.mp keyedA) (keyed_map_iff.mp keyedB)
      (keyed_map_iff.mp keyedC)]

theorem Summed.concatenates {sum : Value} (summed : Summed a b sum) (other : a.kind ≠ .map) :
    Concatenates a b sum := by
  cases summed with
  | texts s u =>
    refine ⟨unitSlots s, unitSlots u, rfl, rfl, ?_, ?_, ?_, ?_⟩
    · simp only [elements?, unitSlots, Text.units_append, List.map_append]
    · simp only [Builtin.sizeOf, unitSlots, List.length_map]
    · simp only [Builtin.sizeOf, unitSlots, List.length_map]
    · simp only [Builtin.sizeOf, unitSlots, Text.units_append, List.length_append, List.length_map,
        Int.natCast_add]
  | lists own items more =>
    refine ⟨items, more, rfl, rfl, rfl, rfl, rfl, ?_⟩
    simp only [Builtin.sizeOf, count?, List.length_append, Int.natCast_add]
  | maps => exact absurd rfl other

theorem merged_insertAll {pairs more : List (Value × Slot)} (keyed : PairsKeyed pairs)
    (moreKeyed : PairsKeyed more) : Merged pairs more (insertAll pairs more) where
  held key own := by
    rw [lookup_insertAll keyed moreKeyed own, Option.isSome_or, Bool.or_eq_true, Or.comm]
  taken key own slot found := by
    rw [lookup_insertAll keyed moreKeyed own, found, Option.some_or]
  left key own absent := by
    rw [lookup_insertAll keyed moreKeyed own, absent, Option.none_or]
  order := keys_insertAll keyed moreKeyed

theorem Summed.merged {sum : Value} (summed : Summed a b sum) (keyedA : a.Keyed) (keyedB : b.Keyed)
    (kind : a.kind = .map) : ∃ ownKey ownValue pairs more all, a = .map ownKey ownValue pairs ∧
      b = .map ownKey ownValue more ∧ sum = .map ownKey ownValue all ∧ Merged pairs more all := by
  cases summed with
  | texts | lists => cases kind
  | maps ownKey ownValue pairs more =>
    exact ⟨ownKey, ownValue, pairs, more, _, rfl, rfl, rfl,
      merged_insertAll (keyed_map_iff.mp keyedA) (keyed_map_iff.mp keyedB)⟩

/-- Values of one complete type of texts, lists or maps can always be added, and three of them in either
grouping. The sum of texts or lists is made of both operands, end to end; the sum of maps is the right one
merged into the left one. -/
theorem operate_containers (complete : t.isComplete = true)
    (kind : t.kind = .string ∨ t.kind = .list ∨ t.kind = .map) (first : Stable t a)
    (second : Stable t b) (third : Stable t c) :
    ∃ ab bc all, operate .add a b = .ok ab ∧ operate .add b c = .ok bc ∧
      operate .add ab c = .ok all ∧ operate .add a bc = .ok all ∧
      (t.kind ≠ .map → Concatenates a b ab) ∧
      (t.kind = .map → ∃ ownKey ownValue pairs more merged, a = .map ownKey ownValue pairs ∧
        b = .map ownKey ownValue more ∧ ab = .map ownKey ownValue merged ∧
        Merged pairs more merged) := by
  obtain ⟨ab, runAB, summedAB, stableAB⟩ := exists_sum complete kind first second
  obtain ⟨bc, runBC, summedBC, stableBC⟩ := exists_sum complete kind second third
  obtain ⟨left, runLeft, onLeft, -⟩ := exists_sum complete kind stableAB third
  obtain ⟨right, runRight, onRight, -⟩ := exists_sum complete kind first stableBC
  obtain rfl := Summed.assoc first.keyed second.keyed third.keyed summedAB summedBC onLeft onRight
  have ownKind : a.kind = t.kind := kind_of_fits first.fits
  refine ⟨ab, bc, left, runAB, runBC, runLeft, runRight, fun other => ?_, fun map => ?_⟩
  · exact summedAB.concatenates (ownKind ▸ other)
  · exact summedAB.merged first.keyed second.keyed (ownKind.trans map)

/-- Three maps of lists under texts, with a key in common to two of them each and nothing under some. -/
theorem operate_containers_of_maps :
    let lists : Ty := .list (some .int)
    let t : Ty := .map (some .string) (some lists)
    let one : Value := .list (some .int) [some (int 1)]
    let two : Value := .list (some .int) [some (int 2), none]
    let map (pairs : List (Value × Slot)) : Value := .map (some .string) (some lists) pairs
    let a := map [(.string "x", some one), (.string "y", none)]
    let b := map [(.string "z", some two), (.string "y", some two)]
    let c := map [(.string "x", none)]
    Stable t a ∧ Stable t b ∧ Stable t c ∧
      operate .add a b =
        .ok (map [(.string "x", some one), (.string "y", some two), (.string "z", some two)]) ∧
      ∃ ab bc all, operate .add a b = .ok ab ∧ operate .add b c = .ok bc ∧
        operate .add ab c = .ok all ∧ operate .add a bc = .ok all := by
  intro lists t one two map a b c
  have stableOne : SlotStable lists (some one) := by
    rintro v ⟨⟩
    refine stable_list_iff.mpr fun slot member v held => ?_
    cases List.mem_singleton.mp member
    cases held
    exact stable_of_scalar rfl nofun
  have stableTwo : SlotStable lists (some two) := by
    rintro v ⟨⟩
    refine stable_list_iff.mpr fun slot member v held => ?_
    rcases List.mem_pair.mp member with rfl | rfl
    · cases held
      exact stable_of_scalar rfl nofun
    · cases held
  have text (s : String) : Stable .string (.string s) := stable_of_scalar rfl nofun
  have first : Stable t a := by
    refine stable_map_iff.mpr ⟨by decide, fun pair member => ?_⟩
    rcases List.mem_pair.mp member with rfl | rfl
    · exact ⟨text "x", stableOne⟩
    · exact ⟨text "y", nofun⟩
  have second : Stable t b := by
    refine stable_map_iff.mpr ⟨by decide, fun pair member => ?_⟩
    rcases List.mem_pair.mp member with rfl | rfl
    · exact ⟨text "z", stableTwo⟩
    · exact ⟨text "y", stableTwo⟩
  have third : Stable t c := by
    refine stable_map_iff.mpr ⟨by decide, fun pair member => ?_⟩
    cases List.mem_singleton.mp member
    exact ⟨text "x", nofun⟩
  obtain ⟨ab, bc, all, runAB, runBC, onLeft, onRight, -, -⟩ :=
    operate_containers rfl (.inr (.inr rfl)) first second third
  exact ⟨first, second, third, rfl, ab, bc, all, runAB, runBC, onLeft, onRight⟩

end Value
end Immediate
