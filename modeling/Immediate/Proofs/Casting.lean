import Immediate.Proofs.Contents
import Immediate.Proofs.Lowering
import Immediate.Value.Cast
/-! What a successful cast does, said once. Every source gives its elements or its pairs, whichever
the target asks for, and these are cast one by one; statements about casts follow by induction
along them. -/
namespace Immediate.Value

open Outcome

/-- A child type that is wanted is the one that is declared. -/
def Keeps (wanted own : Option Ty) : Prop := ∀ t ∈ wanted, own = some t

/-- The slots that a value has as a sequence. -/
def elements? : Value → Option (List Slot)
  | .list _ items | .iterator _ items => some items
  | .map keyTy valueTy pairs => some (entries keyTy valueTy pairs)
  | .string s => some (unitSlots s)
  | _ => none

/-- The pairs that a value has as a map. -/
def pairs? : Value → Option (List (Value × Slot))
  | .list _ items | .iterator _ items => pairsOfEntries? items
  | .map _ _ pairs => some pairs
  | _ => none

/-! ### Child types -/

theorem keeps_of_requiredTy {error : EvalError} {target source : Option Ty} {contents : List Value}
    {t : Ty} (found : requiredTy error target source contents = .ok t) : Keeps target (some t) := by
  rintro wanted ⟨⟩
  cases found
  rfl

theorem keeps_of_optionalTy {target source own : Option Ty} {contents : List Value}
    (found : optionalTy target source contents = .ok own) : Keeps target own := by
  rintro wanted ⟨⟩
  cases found
  rfl

/-- Where a child type is looked for and not found, there is nothing it could have been taken
from. -/
theorem eq_nil_of_optionalTy {target source : Option Ty} {contents : List Value}
    (found : optionalTy target source contents = .ok none) : contents = [] := by
  unfold optionalTy at found
  split at found
  · cases found
  · exact (mem_chains_of_jointTy found).1 rfl

theorem keeps_of_mapTys {source targetTy keyTy : Ty} {target declared : Option Ty × Option Ty}
    {pairs : List (Value × Slot)} {valueTy : Option Ty}
    (found : mapTys source targetTy target declared pairs = .ok (keyTy, valueTy)) :
    Keeps target.1 (some keyTy) ∧ Keeps target.2 valueTy ∧
      (valueTy = none → ∀ pair ∈ pairs, pair.2 = none) := by
  obtain ⟨k, foundKey, rest⟩ := bind_eq_ok.mp found
  obtain ⟨v, foundValue, equal⟩ := bind_eq_ok.mp rest
  cases pure_eq_ok.mp equal
  refine ⟨keeps_of_requiredTy foundKey, keeps_of_optionalTy foundValue, ?_⟩
  rintro rfl
  exact List.filterMap_eq_nil_iff.mp (eq_nil_of_optionalTy foundValue)

theorem keeps_of_halfTys {target : Ty} {keyTy valueTy newKeyTy newValueTy : Option Ty}
    {key value : Slot}
    (found : halfTys target keyTy valueTy key value = .ok (newKeyTy, newValueTy)) :
    ∃ wantedKey wantedValue, target = .entry wantedKey wantedValue ∧
      (Keeps wantedKey newKeyTy ∧ (newKeyTy = none → key = none)) ∧
      Keeps wantedValue newValueTy ∧ (newValueTy = none → value = none) := by
  cases target with
  | entry wantedKey wantedValue =>
    obtain ⟨k, foundKey, rest⟩ := bind_eq_ok.mp found
    obtain ⟨v, foundValue, equal⟩ := bind_eq_ok.mp rest
    cases pure_eq_ok.mp equal
    refine ⟨_, _, rfl, ⟨keeps_of_optionalTy foundKey, ?_⟩, keeps_of_optionalTy foundValue, ?_⟩
    · rintro rfl
      exact Option.toList_eq_nil_iff.mp (eq_nil_of_optionalTy foundKey)
    · rintro rfl
      exact Option.toList_eq_nil_iff.mp (eq_nil_of_optionalTy foundValue)
  | _ => cases found

theorem keeps_getD (wanted : Option Ty) (t : Ty) : Keeps wanted (some (wanted.getD t)) := by
  rintro u ⟨⟩
  rfl

/-! ### Contents -/

/-- The entries of a map are cast as entries are. -/
theorem castPairEntries_eq (target : Ty) (keyTy valueTy : Option Ty)
    (pairs : List (Value × Slot)) :
    castPairEntries target keyTy valueTy pairs =
      castItems target (entries keyTy valueTy pairs) := by
  induction pairs with
  | nil => rfl
  | cons pair rest ih =>
    obtain ⟨key, value⟩ := pair
    have tail : castItems target (entries keyTy valueTy rest) = _ := ih.symm
    unfold entries at tail
    simp only [castPairEntries, entries, List.map_cons, castItems, castSlot, cast, tail]
    cases halfTys target keyTy valueTy (some key) value with
    | error e => rfl
    | ok tys =>
      obtain ⟨newKeyTy, newValueTy⟩ := tys
      simp only [ok_bind]
      cases newKeyTy with
      | none => cases castSlot newValueTy value <;> rfl
      | some t =>
        dsimp only
        cases cast t key <;> cases castSlot newValueTy value <;> rfl

theorem castItems_eq (t : Ty) (items : List Slot) :
    castItems t items = items.mapM (castSlot (some t)) := by
  induction items with
  | nil => rfl
  | cons item rest ih =>
    rw [castItems, ih, List.mapM_cons]

/-- The 16-bit units of a text are cast as shorts are. -/
theorem castUnits_eq (target : Ty) (s : String) :
    castUnits target s = castItems target (unitSlots s) := by
  unfold castUnits unitSlots
  induction Text.units s with
  | nil => rfl
  | cons u rest ih =>
    rw [List.mapM_cons, ih]
    rfl

/-- The entries of a sequence are cast as the pairs they make. -/
theorem castEntryPairs_eq {items : List Slot} {pairs : List (Value × Slot)}
    (made : pairsOfEntries? items = some pairs) (keyTy : Ty) (valueTy : Option Ty) :
    castEntryPairs keyTy valueTy items = castPairs keyTy valueTy pairs := by
  fun_induction pairsOfEntries? items generalizing pairs with
  | case1 =>
    cases made
    rfl
  | case2 ownKey ownValue key value rest ih =>
    obtain ⟨others, madeRest, rfl⟩ := Option.map_eq_some_iff.mp made
    simp only [castEntryPairs, castPairs, ih madeRest]
  | case3 => cases made

theorem exists_of_castItems {target : Ty} {items out : List Slot}
    (cast : castItems target items = .ok out) :
    ∀ slot ∈ out, ∃ source ∈ items, castSlot (some target) source = .ok slot := by
  rw [castItems_eq] at cast
  exact exists_of_mapM cast

theorem exists_of_castPairs {keyTy : Ty} {valueTy : Option Ty} {pairs out : List (Value × Slot)}
    (cast : castPairs keyTy valueTy pairs = .ok out) :
    ∀ pair ∈ out, ∃ source ∈ pairs, Value.cast keyTy source.1 = .ok pair.1 ∧
      castSlot valueTy source.2 = .ok pair.2 := by
  induction pairs generalizing out with
  | nil =>
    cases cast
    exact nofun
  | cons pair rest ih =>
    obtain ⟨key, castKey, others⟩ := bind_eq_ok.mp cast
    obtain ⟨value, castValue, others⟩ := bind_eq_ok.mp others
    obtain ⟨more, castMore, equal⟩ := bind_eq_ok.mp others
    cases pure_eq_ok.mp equal
    intro other member
    rcases List.mem_cons.mp member with rfl | inside
    · exact ⟨pair, List.mem_cons_self, castKey, castValue⟩
    · obtain ⟨source, inRest, held⟩ := ih castMore other inside
      exact ⟨source, List.mem_cons_of_mem _ inRest, held⟩

/-- A cast slot holds what its value was cast to, and without a target what it held. -/
theorem castSlot_eq_ok {target : Option Ty} {source out : Slot}
    (cast : castSlot target source = .ok out) :
    (target = none ∧ out = source) ∨ ∃ t, target = some t ∧
      ((source = none ∧ out = none) ∨
        ∃ v w, source = some v ∧ out = some w ∧ Value.cast t v = .ok w) := by
  cases target with
  | none => cases source <;> cases cast <;> exact .inl ⟨rfl, rfl⟩
  | some t =>
    refine .inr ⟨t, rfl, ?_⟩
    cases source with
    | none =>
      cases cast
      exact .inl ⟨rfl, rfl⟩
    | some v =>
      obtain ⟨w, castValue, rfl⟩ := map_eq_ok.mp cast
      exact .inr ⟨v, w, rfl, rfl, castValue⟩

/-! ### One cast -/

/-- The forms that a successful cast takes. -/
inductive Recast : Ty → Value → Value → Prop where
  | scalar {s : Scalar} {v w : Value} (converted : v.toScalar? s = some w) :
    Recast (.scalar s) v w
  | list {wanted : Option Ty} {t : Ty} {v : Value} {items out : List Slot}
    (kept : Keeps wanted (some t)) (elements : v.elements? = some items)
    (cast : castItems t items = .ok out) : Recast (.list wanted) v (.list (some t) out)
  | iterator {wanted : Option Ty} {t : Ty} {v : Value} {items out : List Slot}
    (kept : Keeps wanted (some t)) (elements : v.elements? = some items)
    (cast : castItems t items = .ok out) : Recast (.iterator wanted) v (.iterator (some t) out)
  | map {wantedKey wantedValue valueTy : Option Ty} {keyTy : Ty} {v : Value}
    {pairs out : List (Value × Slot)} (keptKey : Keeps wantedKey (some keyTy))
    (keptValue : Keeps wantedValue valueTy)
    (unset : valueTy = none → ∀ pair ∈ pairs, pair.2 = none) (elements : v.pairs? = some pairs)
    (cast : castPairs keyTy valueTy pairs = .ok out) :
    Recast (.map wantedKey wantedValue) v (.map (some keyTy) valueTy (insertAll [] out))
  | entry {wantedKey wantedValue ownKey ownValue keyTy valueTy : Option Ty}
    {key value newKey newValue : Slot} (keptKey : Keeps wantedKey keyTy)
    (keptValue : Keeps wantedValue valueTy) (unsetKey : keyTy = none → key = none)
    (unsetValue : valueTy = none → value = none) (castKey : castSlot keyTy key = .ok newKey)
    (castValue : castSlot valueTy value = .ok newValue) :
    Recast (.entry wantedKey wantedValue) (.entry ownKey ownValue key value)
      (.entry keyTy valueTy newKey newValue)

theorem recast_of_castScalar {s : Scalar} {v w : Value} (cast : castScalar s v = .ok w) :
    Recast (.scalar s) v w := by
  unfold castScalar at cast
  split at cast
  · rename_i converted
    cases cast
    exact .scalar converted
  · cases cast

theorem recast_of_castWhole {target : Ty} {v w : Value} (cast : castWhole target v = .ok w) :
    Recast target v w := by
  cases target with
  | scalar s => exact recast_of_castScalar cast
  | _ => cases cast

theorem recast_of_cast {target : Ty} {v w : Value} (held : cast target v = .ok w) :
    Recast target v w := by
  cases v with
  | integer | float | double | entity | position => exact recast_of_castWhole held
  | string s =>
    cases target with
    | scalar s => exact recast_of_castScalar held
    | list wanted =>
      obtain ⟨out, units, rfl⟩ := map_eq_ok.mp held
      rw [castUnits_eq] at units
      exact .list (keeps_getD _ _) rfl units
    | iterator wanted =>
      obtain ⟨out, units, rfl⟩ := map_eq_ok.mp held
      rw [castUnits_eq] at units
      exact .iterator (keeps_getD _ _) rfl units
    | map | entry => cases held
  | list element items | iterator element items =>
    cases target with
    | scalar s => exact recast_of_castScalar held
    | list wanted =>
      obtain ⟨t, found, rest⟩ := bind_eq_ok.mp held
      obtain ⟨out, items, rfl⟩ := map_eq_ok.mp rest
      exact .list (keeps_of_requiredTy found) rfl items
    | iterator wanted =>
      obtain ⟨t, found, rest⟩ := bind_eq_ok.mp held
      obtain ⟨out, items, rfl⟩ := map_eq_ok.mp rest
      exact .iterator (keeps_of_requiredTy found) rfl items
    | map wantedKey wantedValue =>
      cases made : pairsOfEntries? items with
      | none =>
        simp only [cast, made] at held
        cases held
      | some pairs =>
        simp only [cast, made] at held
        obtain ⟨⟨keyTy, valueTy⟩, found, mapped⟩ := bind_eq_ok.mp held
        obtain ⟨inserted, joined, rfl⟩ := map_eq_ok.mp mapped
        obtain ⟨out, cast, rfl⟩ := map_eq_ok.mp joined
        rw [castEntryPairs_eq made] at cast
        obtain ⟨keptKey, keptValue, unset⟩ := keeps_of_mapTys found
        exact .map keptKey keptValue unset made cast
    | entry => cases held
  | map keyTy valueTy pairs =>
    cases target with
    | scalar s => exact recast_of_castScalar held
    | list wanted =>
      obtain ⟨out, items, rfl⟩ := map_eq_ok.mp held
      rw [castPairEntries_eq] at items
      exact .list (keeps_getD _ _) rfl items
    | iterator wanted =>
      obtain ⟨out, items, rfl⟩ := map_eq_ok.mp held
      rw [castPairEntries_eq] at items
      exact .iterator (keeps_getD _ _) rfl items
    | map wantedKey wantedValue =>
      obtain ⟨⟨keyTy, valueTy⟩, found, mapped⟩ := bind_eq_ok.mp held
      obtain ⟨inserted, joined, rfl⟩ := map_eq_ok.mp mapped
      obtain ⟨out, cast, rfl⟩ := map_eq_ok.mp joined
      obtain ⟨keptKey, keptValue, unset⟩ := keeps_of_mapTys found
      exact .map keptKey keptValue unset rfl cast
    | entry => cases held
  | entry keyTy valueTy key value =>
    obtain ⟨⟨newKeyTy, newValueTy⟩, found, rest⟩ := bind_eq_ok.mp held
    obtain ⟨newKey, castKey, last⟩ := bind_eq_ok.mp rest
    obtain ⟨newValue, castValue, equal⟩ := bind_eq_ok.mp last
    cases pure_eq_ok.mp equal
    obtain ⟨wantedKey, wantedValue, rfl, ⟨keptKey, unsetKey⟩, keptValue, unsetValue⟩ :=
      keeps_of_halfTys found
    exact .entry keptKey keptValue unsetKey unsetValue castKey castValue

/-! ### Induction along a cast -/

/-- What a cast leaves in a slot. Where the type is known, this is what the value of the source was
cast to, and the statement holds of that cast. -/
structure Carried (holds : Ty → Value → Value → Prop) (target : Option Ty) (source out : Slot) :
    Prop where
  cast : castSlot target source = .ok out
  each : ∀ t ∈ target, ∀ w ∈ out, ∃ v ∈ source, Value.cast t v = .ok w ∧ holds t v w

/-- That a statement holds of every cast of a value. -/
private def Throughout (holds : Ty → Value → Value → Prop) (v : Value) : Prop :=
  ∀ t w, cast t v = .ok w → holds t v w

section Induction
variable {motive : Ty → Value → Value → Prop}

private theorem carried_of_castSlot {target : Option Ty} {source out : Slot}
    (below : ∀ v ∈ source, Throughout motive v) (cast : castSlot target source = .ok out) :
    Carried motive target source out := by
  refine ⟨cast, fun t known w inside => ?_⟩
  rcases castSlot_eq_ok cast with ⟨rfl, -⟩ | ⟨t', rfl, ⟨rfl, rfl⟩ | ⟨v, w', rfl, rfl, held⟩⟩
  · cases known
  · cases inside
  · cases known
    cases inside
    exact ⟨v, rfl, held, below v rfl _ _ held⟩

private theorem carried_of_castItems {target : Ty} {items out : List Slot}
    (below : ∀ slot ∈ items, ∀ v ∈ slot, Throughout motive v)
    (cast : castItems target items = .ok out) :
    ∀ slot ∈ out, ∃ source ∈ items, Carried motive (some target) source slot := by
  intro slot member
  obtain ⟨source, inside, held⟩ := exists_of_castItems cast slot member
  exact ⟨source, inside, carried_of_castSlot (below source inside) held⟩

private theorem carried_of_castPairs {keyTy : Ty} {valueTy : Option Ty}
    {pairs out : List (Value × Slot)} (keys : ∀ pair ∈ pairs, Throughout motive pair.1)
    (values : ∀ pair ∈ pairs, ∀ v ∈ pair.2, Throughout motive v)
    (cast : castPairs keyTy valueTy pairs = .ok out) :
    ∀ pair ∈ out, ∃ source ∈ pairs, (Value.cast keyTy source.1 = .ok pair.1 ∧
      motive keyTy source.1 pair.1) ∧ Carried motive valueTy source.2 pair.2 := by
  intro pair member
  obtain ⟨source, inside, castKey, castValue⟩ := exists_of_castPairs cast pair member
  exact ⟨source, inside, ⟨castKey, keys source inside _ _ castKey⟩,
    carried_of_castSlot (values source inside) castValue⟩

/-- The contents that make up the pairs of a sequence of entries are the halves of these. -/
theorem entry_of_mem_pairs {items : List Slot} {pairs : List (Value × Slot)}
    (made : pairsOfEntries? items = some pairs) :
    ∀ pair ∈ pairs, ∃ keyTy valueTy, some (.entry keyTy valueTy (some pair.1) pair.2) ∈ items := by
  fun_induction pairsOfEntries? items generalizing pairs with
  | case1 =>
    cases made
    exact nofun
  | case2 ownKey ownValue key value rest ih =>
    obtain ⟨others, madeRest, rfl⟩ := Option.map_eq_some_iff.mp made
    intro pair member
    rcases List.mem_cons.mp member with rfl | inside
    · exact ⟨ownKey, ownValue, List.mem_cons_self⟩
    · obtain ⟨keyTy, valueTy, found⟩ := ih madeRest pair inside
      exact ⟨keyTy, valueTy, List.mem_cons_of_mem _ found⟩
  | case3 => cases made

/-- A statement about a type, a value and what the value is cast to passes from the casts of the
contents to the cast of the whole. -/
structure AlongCasts (motive : Ty → Value → Value → Prop) : Prop where
  scalar {s : Scalar} {v w : Value} (converted : v.toScalar? s = some w) : motive (.scalar s) v w
  list {wanted : Option Ty} {t : Ty} {v : Value} {items out : List Slot}
    (kept : Keeps wanted (some t)) (elements : v.elements? = some items)
    (cast : castItems t items = .ok out)
    (carried : ∀ slot ∈ out, ∃ source ∈ items, Carried motive (some t) source slot) :
    motive (.list wanted) v (.list (some t) out)
  iterator {wanted : Option Ty} {t : Ty} {v : Value} {items out : List Slot}
    (kept : Keeps wanted (some t)) (elements : v.elements? = some items)
    (cast : castItems t items = .ok out)
    (carried : ∀ slot ∈ out, ∃ source ∈ items, Carried motive (some t) source slot) :
    motive (.iterator wanted) v (.iterator (some t) out)
  map {wantedKey wantedValue valueTy : Option Ty} {keyTy : Ty} {v : Value}
    {pairs out : List (Value × Slot)} (keptKey : Keeps wantedKey (some keyTy))
    (keptValue : Keeps wantedValue valueTy)
    (unset : valueTy = none → ∀ pair ∈ pairs, pair.2 = none) (elements : v.pairs? = some pairs)
    (cast : castPairs keyTy valueTy pairs = .ok out)
    (carried : ∀ pair ∈ out, ∃ source ∈ pairs, (Value.cast keyTy source.1 = .ok pair.1 ∧
      motive keyTy source.1 pair.1) ∧ Carried motive valueTy source.2 pair.2) :
    motive (.map wantedKey wantedValue) v (.map (some keyTy) valueTy (insertAll [] out))
  entry {wantedKey wantedValue ownKey ownValue keyTy valueTy : Option Ty}
    {key value newKey newValue : Slot} (keptKey : Keeps wantedKey keyTy)
    (keptValue : Keeps wantedValue valueTy) (unsetKey : keyTy = none → key = none)
    (unsetValue : valueTy = none → value = none) (carriedKey : Carried motive keyTy key newKey)
    (carriedValue : Carried motive valueTy value newValue) :
    motive (.entry wantedKey wantedValue) (.entry ownKey ownValue key value)
      (.entry keyTy valueTy newKey newValue)

/-- The statement holds of all casts of a value and, if this is an entry, of all casts of its
halves: a list of entries may be cast as the map they make. -/
private structure Covered (motive : Ty → Value → Value → Prop) (v : Value) : Prop where
  whole : Throughout motive v
  halves {keyTy valueTy : Option Ty} {key value : Slot} (form : v = .entry keyTy valueTy key value) :
    (∀ x ∈ key, Throughout motive x) ∧ ∀ x ∈ value, Throughout motive x

private theorem throughout_of_parts (passes : AlongCasts motive) {v : Value}
    (elements : ∀ {items}, v.elements? = some items → ∀ slot ∈ items, ∀ x ∈ slot,
      Throughout motive x)
    (pairs : ∀ {pairs}, v.pairs? = some pairs → ∀ pair ∈ pairs, Throughout motive pair.1 ∧
      ∀ x ∈ pair.2, Throughout motive x)
    (halves : ∀ {keyTy valueTy key value}, v = .entry keyTy valueTy key value →
      (∀ x ∈ key, Throughout motive x) ∧ ∀ x ∈ value, Throughout motive x) :
    Throughout motive v := by
  intro t w held
  cases recast_of_cast held with
  | scalar converted => exact passes.scalar converted
  | list kept found cast =>
    exact passes.list kept found cast (carried_of_castItems (elements found) cast)
  | iterator kept found cast =>
    exact passes.iterator kept found cast (carried_of_castItems (elements found) cast)
  | map keptKey keptValue unset found cast =>
    exact passes.map keptKey keptValue unset found cast (carried_of_castPairs
      (fun pair inside => (pairs found pair inside).1)
      (fun pair inside => (pairs found pair inside).2) cast)
  | entry keptKey keptValue unsetKey unsetValue castKey castValue =>
    obtain ⟨keyHalf, valueHalf⟩ := halves rfl
    exact passes.entry keptKey keptValue unsetKey unsetValue (carried_of_castSlot keyHalf castKey)
      (carried_of_castSlot valueHalf castValue)

private theorem throughout_of_scalar (passes : AlongCasts motive) {v : Value} {s : Scalar}
    (scalar : v.kind = .scalar s) (elements : v.elements? = none) : Throughout motive v := by
  refine throughout_of_parts passes ?_ ?_ ?_
  · intro items found
    rw [elements] at found
    cases found
  · intro pairs found
    cases v with
    | list | iterator | map | entry => cases scalar
    | _ => cases found
  · rintro keyTy valueTy key value rfl
    cases scalar

private theorem throughout_of_sequence (passes : AlongCasts motive) {v : Value} {items : List Slot}
    (held : ∀ slot ∈ items, ∀ x ∈ slot, Covered motive x) (elements : v.elements? = some items)
    (pairs : v.pairs? = pairsOfEntries? items) (other : v.kind ≠ .entry) :
    Throughout motive v := by
  refine throughout_of_parts passes ?_ ?_ ?_
  · intro found same slot inside x member
    cases elements.symm.trans same
    exact (held slot inside x member).whole
  · intro found made pair inside
    obtain ⟨keyTy, valueTy, member⟩ := entry_of_mem_pairs (pairs.symm.trans made) pair inside
    obtain ⟨keyHalf, valueHalf⟩ := (held _ member _ rfl).halves rfl
    exact ⟨keyHalf pair.1 rfl, valueHalf⟩
  · rintro keyTy valueTy key value rfl
    exact absurd rfl other

private theorem throughout_of_halves (passes : AlongCasts motive) (keyTy valueTy : Option Ty)
    {key value : Slot} (keyHalf : ∀ x ∈ key, Throughout motive x)
    (valueHalf : ∀ x ∈ value, Throughout motive x) :
    Throughout motive (.entry keyTy valueTy key value) := by
  refine throughout_of_parts passes ?_ ?_ ?_
  · intro items found
    cases found
  · intro pairs found
    cases found
  · rintro keyTy' valueTy' key' value' ⟨⟩
    exact ⟨keyHalf, valueHalf⟩

private theorem covered (passes : AlongCasts motive) (v : Value) : Covered motive v := by
  induction v with
  | integer | float | double | entity | position =>
    exact ⟨throughout_of_scalar passes rfl rfl, nofun⟩
  | string s =>
    refine ⟨throughout_of_parts passes ?_ ?_ nofun, nofun⟩
    · rintro items ⟨⟩ slot inside x held
      obtain ⟨u, -, rfl⟩ := List.mem_map.mp inside
      cases held
      exact throughout_of_scalar passes rfl rfl
    · intro pairs found
      cases found
  | list element items ih => exact ⟨throughout_of_sequence passes ih rfl rfl nofun, nofun⟩
  | iterator element items ih => exact ⟨throughout_of_sequence passes ih rfl rfl nofun, nofun⟩
  | map keyTy valueTy pairs keys values =>
    refine ⟨throughout_of_parts passes ?_ ?_ nofun, nofun⟩
    · rintro items ⟨⟩ slot inside x held
      obtain ⟨⟨key, value⟩, member, rfl⟩ := List.mem_map.mp inside
      cases held
      have keyHalf : ∀ x ∈ some key, Throughout motive x := by
        rintro x ⟨⟩
        exact (keys _ member).whole
      exact throughout_of_halves passes _ _ keyHalf fun x held => (values _ member x held).whole
    · rintro found ⟨⟩ pair inside
      exact ⟨(keys pair inside).whole, fun x held => (values pair inside x held).whole⟩
  | entry keyTy valueTy key value keyHeld valueHeld =>
    have keyHalf (x : Value) (held : x ∈ key) := (keyHeld x held).whole
    have valueHalf (x : Value) (held : x ∈ value) := (valueHeld x held).whole
    refine ⟨throughout_of_halves passes _ _ keyHalf valueHalf, ?_⟩
    rintro keyTy' valueTy' key' value' ⟨⟩
    exact ⟨keyHalf, valueHalf⟩

/-- What passes along casts holds of every cast that succeeds. -/
theorem AlongCasts.of_cast (passes : AlongCasts motive) {target : Ty} {v w : Value}
    (held : cast target v = .ok w) : motive target v w :=
  (covered passes v).whole target w held

end Induction

end Immediate.Value
