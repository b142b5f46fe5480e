import Immediate.Eval.Machine
import Immediate.Proofs.Editing.Reading
/-! Evaluation keeps keys apart. What code gives is made of its constants, of what variables hold and
of what instructions build, and these build maps by insertion alone. So keys are apart in every value
of a result if they are so in the constants and in the variables. -/
namespace Immediate

open Outcome Value

namespace Operand

/-- Keys are apart in every value of an operand. -/
def Keyed (operand : Operand Slot) : Prop := ∀ slot ∈ operand.values, SlotKeyed slot

theorem keyed_single {slot : Slot} (keyed : SlotKeyed slot) : (single slot).Keyed := by
  intro other member
  rw [values_single, List.mem_singleton] at member
  rw [member]
  exact keyed

theorem keyed_spread {slots : List Slot} (keyed : ∀ slot ∈ slots, SlotKeyed slot) :
    (spread slots).Keyed := by
  intro slot member
  rw [values_spread] at member
  exact keyed slot member

/-! ### Fanning out -/

private theorem mem_values_zipWith {α β γ : Type} {f : α → β → γ} {a : Operand α} {b : Operand β}
    {x : γ} (member : x ∈ (zipWith f a b).values) : ∃ u ∈ a.values, ∃ v ∈ b.values, f u v = x := by
  cases a with
  | single u =>
    cases b with
    | single v =>
      rw [zipWith, values_single, List.mem_singleton] at member
      exact ⟨u, by simp, v, by simp, member.symm⟩
    | many t =>
      rw [zipWith, values_many, Stream.values_map] at member
      obtain ⟨v, inside, equal⟩ := List.mem_map.mp member
      exact ⟨u, by simp, v, inside, equal⟩
  | many s =>
    cases b with
    | single v =>
      rw [zipWith, values_many, Stream.values_map] at member
      obtain ⟨u, inside, equal⟩ := List.mem_map.mp member
      exact ⟨u, inside, v, by simp, equal⟩
    | many t =>
      rw [zipWith, values_many, Stream.values_zipWith, ← List.map_uncurry_zip_eq_zipWith] at member
      obtain ⟨⟨u, v⟩, inside, equal⟩ := List.mem_map.mp member
      exact ⟨u, (List.of_mem_zip inside).1, v, (List.of_mem_zip inside).2, equal⟩

private theorem keyed_tuples {operands : List (Operand Slot)}
    (keyed : ∀ operand ∈ operands, operand.Keyed) :
    ∀ args ∈ (tuples operands).values, ∀ arg ∈ args, SlotKeyed arg := by
  induction operands with
  | nil =>
    intro args member
    rw [tuples, values_single, List.mem_singleton] at member
    rw [member]
    exact fun arg impossible => absurd impossible List.not_mem_nil
  | cons operand rest ih =>
    intro args member
    obtain ⟨first, inside, others, below, rfl⟩ := mem_values_zipWith member
    intro arg among
    rcases List.mem_cons.mp among with rfl | later
    · exact keyed operand List.mem_cons_self arg inside
    · exact ih (fun other member => keyed other (List.mem_cons_of_mem _ member)) others below arg later

/-- What an operation keeps for single values, it keeps when it fans out. -/
theorem keyed_fanOut {operation : Nat → List Slot → Except EvalError (Operand Slot)}
    (each : ∀ n args result, (∀ arg ∈ args, SlotKeyed arg) → operation n args = .ok result →
      result.Keyed)
    {operands : List (Operand Slot)} (keyed : ∀ operand ∈ operands, operand.Keyed)
    {result : Operand Slot} (run : fanOut operation operands = .ok result) : result.Keyed := by
  have tuplesKeyed := keyed_tuples keyed
  unfold fanOut at run
  cases tupled : tuples operands with
  | single args =>
    rw [tupled] at run tuplesKeyed
    exact each 0 args result (tuplesKeyed args (by simp)) run
  | many s =>
    rw [tupled] at run tuplesKeyed
    cases run
    intro slot member
    rw [values_many, Stream.values_flatMap, Stream.values_zipIdx] at member
    obtain ⟨⟨args, n⟩, numbered, given⟩ := List.mem_flatMap.mp member
    have inside : args ∈ s.values := List.mem_of_getElem? (List.mem_zipIdx_iff_getElem?.mp numbered)
    rw [values_resultsOrReport] at given
    cases ran : operation n args with
    | error e =>
      rw [ran] at given
      cases given
    | ok one =>
      rw [ran] at given
      exact each n args one (tuplesKeyed args inside) ran slot given

theorem keyed_concat {operands : List (Operand Slot)} (keyed : ∀ operand ∈ operands, operand.Keyed) :
    (many (concat operands)).Keyed := by
  induction operands with
  | nil => exact nofun
  | cons operand rest ih =>
    intro slot member
    rw [values_many, concat, Stream.values_append] at member
    rcases List.mem_append.mp member with first | later
    · exact keyed operand List.mem_cons_self slot first
    · exact ih (fun other member => keyed other (List.mem_cons_of_mem _ member)) slot later

end Operand

/-! ### Reading -/

/-- Whatever a selector reads below a value, keys are apart in it. -/
theorem Selector.keyed_read {selector : Selector} {slot : Slot}
    (keyed : SlotKeyed slot) {result : Operand Slot} (run : selector.read slot = .ok result) :
    result.Keyed := by
  have strictly {selector : Selector} (strict : ∀ index, selector ≠ .optional index)
      {result : Operand Slot} (run : selector.read slot = .ok result) : result.Keyed := by
    have agrees := agrees_selected keyed strict
    rw [run] at agrees
    generalize selectedSteps false selector slot = selected at agrees
    cases agrees with
    | single leads => exact Operand.keyed_single (keyed_at? keyed leads)
    | many leads =>
      intro child member
      obtain ⟨step, -, there⟩ := exists_of_mem_leads leads member
      exact keyed_at? keyed there
  by_cases lenient : ∃ index, selector = .optional index
  · obtain ⟨index, rfl⟩ := lenient
    change optionallyIndexed slot index = .ok result at run
    unfold optionallyIndexed at run
    cases ran : indexed slot index with
    | ok operand =>
      rw [ran] at run
      cases run
      have plain : (Selector.index index).read slot = .ok result := ran
      have strict (other : Slot) : Selector.index index ≠ .optional other := by
        intro same
        cases same
      exact strictly strict plain
    | error e =>
      rw [ran] at run
      cases run
      exact nofun
  · exact strictly (fun index same => lenient ⟨index, same⟩) run

/-! ### Instructions -/

namespace Value

theorem keyed_ofHalves {key value : Slot} (first : SlotKeyed key) (second : SlotKeyed value) :
    (ofHalves key value).Keyed := keyed_entry_iff.mpr ⟨first, second⟩

private theorem kind_of_integerOperation {width : Width} {op : BinaryOp} {a b : BitVec 64}
    {v : Value} (run : integerOperation width op a b = .ok v) : v.kind = .scalar (.integer width) := by
  cases op with
  | div | rem =>
    simp only [integerOperation] at run
    split at run
    · cases run
    · cases run
      rfl
  | range => cases run
  | _ =>
    cases run
    rfl

/-- What an operator makes of operands of one type: of containers their contents joined under the child
types of the left one, and of values without contents another one. -/
inductive Operated : Value → Value → Value → Prop where
  | scalar {left right v : Value} {s : Scalar} (operand : left.kind = .scalar s)
    (kind : v.kind = .scalar s) : Operated left right v
  | lists (own own' : Option Ty) (items more : List Slot) :
    Operated (.list own items) (.list own' more) (.list own (items ++ more))
  | maps (ownKey ownValue ownKey' ownValue' : Option Ty) (pairs more : List (Value × Slot)) :
    Operated (.map ownKey ownValue pairs) (.map ownKey' ownValue' more)
      (.map ownKey ownValue (insertAll pairs more))

theorem operated_of_operateJoined {op : BinaryOp} {left right v : Value}
    (run : operateJoined op left right = .ok v) : Operated left right v := by
  unfold operateJoined at run
  split at run
  · exact .scalar rfl (kind_of_integerOperation run)
  · split at run
    · cases run
      exact .scalar rfl rfl
    · cases run
  · split at run
    · cases run
      exact .scalar rfl rfl
    · cases run
  · split at run
    · cases run
      exact .scalar rfl rfl
    · cases run
  · split at run
    · cases run
      exact .lists ..
    · cases run
  · split at run
    · cases run
      exact .maps ..
    · cases run
  · split at run
    · cases run
      exact .scalar rfl rfl
    · cases run
      exact .scalar rfl rfl
    · cases run
  · cases run

/-- An operator casts both operands to a type that their chains lead to. -/
theorem operated_of_operate {op : BinaryOp} {left right v : Value}
    (run : operate op left right = .ok v) :
    ∃ t l r, Ty.operable? left.ty right.ty [op.capability] = some t ∧ cast t left = .ok l ∧
      cast t right = .ok r ∧ Operated l r v := by
  unfold operate at run
  split at run
  · cases run
  · rename_i t found
    obtain ⟨l, castLeft, run⟩ := bind_eq_ok.mp run
    obtain ⟨r, castRight, run⟩ := bind_eq_ok.mp run
    exact ⟨t, l, r, found, castLeft, castRight, operated_of_operateJoined run⟩

private theorem Operated.keyed {left right v : Value} (operated : Operated left right v)
    (first : left.Keyed) (second : right.Keyed) : v.Keyed := by
  cases operated with
  | scalar operand kind => exact keyed_of_scalar kind
  | lists =>
    refine keyed_list_iff.mpr fun slot member => ?_
    rcases List.mem_append.mp member with left | right
    · exact keyed_list_iff.mp first slot left
    · exact keyed_list_iff.mp second slot right
  | maps =>
    exact keyed_map_iff.mpr ((keyed_map_iff.mp first).merge (keyed_map_iff.mp second))

theorem keyed_operate {op : BinaryOp} {left right v : Value} (first : left.Keyed)
    (second : right.Keyed) (run : operate op left right = .ok v) : v.Keyed := by
  obtain ⟨t, l, r, -, castLeft, castRight, operated⟩ := operated_of_operate run
  exact operated.keyed (keyed_of_cast first castLeft) (keyed_of_cast second castRight)

private theorem keyed_integersFrom (width : Width) (first : Int) (count : Nat) :
    (Operand.many (integersFrom width first count)).Keyed := by
  induction count generalizing first with
  | zero => exact nofun
  | succ count ih =>
    intro slot member
    rw [integersFrom, Operand.values_many, Stream.values_yield] at member
    rcases List.mem_cons.mp member with rfl | later
    · exact slotKeyed_some (.integer ..)
    · exact ih _ slot later

theorem keyed_operateSlots {op : BinaryOp} {left right : Slot} (first : SlotKeyed left)
    (second : SlotKeyed right) {result : Operand Slot}
    (run : operateSlots op left right = .ok result) : result.Keyed := by
  cases left with
  | none => cases run
  | some v =>
    cases right with
    | none => cases run
    | some w =>
      simp only [operateSlots] at run
      split at run
      · obtain ⟨s, ranged, rfl⟩ := map_eq_ok.mp run
        unfold range at ranged
        split at ranged
        · cases ranged
          exact keyed_integersFrom _ _ _
        · cases ranged
      · obtain ⟨x, operated, equal⟩ := bind_eq_ok.mp run
        cases pure_eq_ok.mp equal
        exact Operand.keyed_single (slotKeyed_some
          (keyed_operate (first v rfl) (second w rfl) operated))

theorem keyed_operateSlot {op : UnaryOp} {slot : Slot} {result : Operand Slot}
    (run : operateSlot op slot = .ok result) : result.Keyed := by
  cases slot with
  | none => cases run
  | some v =>
    obtain ⟨w, operated, equal⟩ := bind_eq_ok.mp run
    cases pure_eq_ok.mp equal
    refine Operand.keyed_single (slotKeyed_some ?_)
    unfold operateUnary at operated
    split at operated
    · cases operated
    · obtain ⟨x, -, negated⟩ := bind_eq_ok.mp operated
      split at negated
      · cases negated
        exact .integer ..
      · cases negated
        exact .float _
      · cases negated
        exact .double _
      · cases negated
        exact .position _
      · cases negated

private theorem keyed_castItems {t : Ty} {items out : List Slot}
    (keyed : ∀ slot ∈ items, SlotKeyed slot) (cast : castItems t items = .ok out) :
    ∀ slot ∈ out, SlotKeyed slot := by
  intro slot member
  obtain ⟨source, inside, held⟩ := exists_of_castItems cast slot member
  exact slotKeyed_of_castSlot (keyed source inside) held

theorem entry_of_mem_halves {items : List Slot} {pairs : List (Slot × Slot)}
    (halved : items.mapM halves? = some pairs) :
    ∀ pair ∈ pairs, ∃ keyTy valueTy, some (.entry keyTy valueTy pair.1 pair.2) ∈ items := by
  induction items generalizing pairs with
  | nil =>
    cases halved
    exact nofun
  | cons item rest ih =>
    rw [List.mapM_cons] at halved
    obtain ⟨first, halvedFirst, others⟩ := Option.bind_eq_some_iff.mp halved
    obtain ⟨more, halvedRest, equal⟩ := Option.bind_eq_some_iff.mp others
    cases equal
    intro pair member
    rcases List.mem_cons.mp member with rfl | later
    · unfold halves? at halvedFirst
      split at halvedFirst
      · cases halvedFirst
        exact ⟨_, _, List.mem_cons_self⟩
      · cases halvedFirst
    · obtain ⟨keyTy, valueTy, inside⟩ := ih halvedRest pair later
      exact ⟨keyTy, valueTy, List.mem_cons_of_mem _ inside⟩

private theorem keyed_ofEntryLiteral {pairs : List (Slot × Slot)}
    (keyed : ∀ pair ∈ pairs, SlotKeyed pair.1 ∧ SlotKeyed pair.2) {v : Value}
    (run : ofEntryLiteral pairs = .ok v) : v.Keyed := by
  obtain ⟨keyTy, -, run⟩ := bind_eq_ok.mp run
  obtain ⟨valueTy, -, run⟩ := bind_eq_ok.mp run
  obtain ⟨out, cast, equal⟩ := bind_eq_ok.mp run
  cases pure_eq_ok.mp equal
  refine keyed_map_iff.mpr (PairsKeyed.nil.insertAll fun pair member => ?_)
  obtain ⟨⟨key, value⟩, inside, ran⟩ := exists_of_mapM cast pair member
  obtain ⟨first, second⟩ := keyed _ inside
  obtain ⟨newKey, castKey, ran⟩ := bind_eq_ok.mp ran
  cases newKey with
  | none => cases ran
  | some newKey =>
    obtain ⟨newValue, castValue, equal⟩ := bind_eq_ok.mp ran
    cases pure_eq_ok.mp equal
    exact ⟨slotKeyed_of_castSlot first castKey newKey rfl, slotKeyed_of_castSlot second castValue⟩

theorem keyed_ofLiteral {items : List Slot} (keyed : ∀ slot ∈ items, SlotKeyed slot) {v : Value}
    (run : ofLiteral items = .ok v) : v.Keyed := by
  unfold ofLiteral at run
  split at run
  · rename_i first rest pairs halved
    refine keyed_ofEntryLiteral (fun pair member => ?_) run
    obtain ⟨keyTy, valueTy, inside⟩ := entry_of_mem_halves halved pair member
    exact keyed_entry_iff.mp (keyed _ inside _ rfl)
  · obtain ⟨t, -, listed⟩ := bind_eq_ok.mp run
    cases t with
    | none =>
      cases listed
      exact keyed_list_iff.mpr keyed
    | some t =>
      obtain ⟨out, cast, equal⟩ := bind_eq_ok.mp listed
      cases pure_eq_ok.mp equal
      exact keyed_list_iff.mpr (keyed_castItems keyed cast)

end Value

/-! ### Built-in functions -/

theorem keyed_arg {args : List Slot} (keyed : ∀ arg ∈ args, SlotKeyed arg) (i : Nat) :
    SlotKeyed ((args[i]?).getD none) := by
  by_cases inside : i < args.length
  · rw [List.getElem?_eq_getElem inside]
    exact keyed _ (List.getElem_mem inside)
  · rw [List.getElem?_eq_none (Nat.le_of_not_lt inside)]
    exact slotKeyed_none

namespace Builtin

theorem keyed_required {b : Builtin} {args : List Slot} (keyed : ∀ arg ∈ args, SlotKeyed arg)
    {i : Nat} {v : Value} (run : required b args i = .ok v) : v.Keyed := by
  unfold required at run
  split at run
  · rename_i held
    cases run
    exact keyed_arg keyed i v held
  · cases run

private theorem keyed_positionEntries {items : List Slot} (keyed : ∀ slot ∈ items, SlotKeyed slot) :
    ∀ slot ∈ positionEntries items, SlotKeyed slot := by
  intro slot member
  obtain ⟨⟨item, i⟩, inside, rfl⟩ := List.mem_map.mp member
  have found := List.mem_zipIdx_iff_getElem?.mp inside
  exact slotKeyed_some (keyed_ofHalves (slotKeyed_some (.integer ..))
    (keyed item (List.mem_of_getElem? found)))

theorem keyed_entriesOf {v : Value} (keyed : v.Keyed) {result : Operand Slot}
    (run : entriesOf v = .ok result) : result.Keyed := by
  cases v with
  | map keyTy valueTy pairs =>
    cases run
    exact Operand.keyed_spread (keyed_entries (keyed_map_iff.mp keyed))
  | list element items =>
    cases run
    exact Operand.keyed_spread (keyed_positionEntries (keyed_list_iff.mp keyed))
  | iterator element items =>
    cases run
    exact Operand.keyed_spread (keyed_positionEntries (keyed_iterator_iff.mp keyed))
  | _ => cases run

private theorem keyed_positions (items : List Slot) : ∀ slot ∈ positions items, SlotKeyed slot := by
  intro slot member
  obtain ⟨i, -, rfl⟩ := List.mem_map.mp member
  exact slotKeyed_some (.integer ..)

theorem keyed_keysOf {v : Value} (keyed : v.Keyed) {result : Operand Slot}
    (run : keysOf v = .ok result) : result.Keyed := by
  cases v with
  | map keyTy valueTy pairs =>
    cases run
    refine Operand.keyed_spread fun slot member => ?_
    obtain ⟨pair, inside, rfl⟩ := List.mem_map.mp member
    exact slotKeyed_some ((keyed_map_iff.mp keyed).keys pair inside)
  | list | iterator =>
    cases run
    exact Operand.keyed_spread (keyed_positions _)
  | _ => cases run

theorem keyed_valuesOf {v : Value} (keyed : v.Keyed) {result : Operand Slot}
    (run : valuesOf v = .ok result) : result.Keyed := by
  have contents : (Selector.all).read (some v) = .ok result := by
    cases v with
    | map | list | iterator => exact run
    | _ => cases run
  exact Selector.keyed_read (slotKeyed_some keyed) contents

theorem keyed_iteratorOf {v w : Value} (keyed : v.Keyed) (run : iteratorOf v = .ok w) : w.Keyed := by
  cases v with
  | list | iterator | map | string =>
    cases run
    exact keyed_iterator_iff.mpr (keyed.elementsKeyed rfl)
  | _ => cases run

private theorem keyed_sizeOf {v w : Value} (run : sizeOf v = .ok w) : w.Keyed := by
  unfold sizeOf at run
  split at run
  · cases run
    exact .integer ..
  · split at run
    · cases run
      exact .integer ..
    · cases run

private theorem keyed_magnitudeOf {v w : Value} (run : magnitudeOf v = .ok w) : w.Keyed := by
  unfold magnitudeOf at run
  split at run
  · cases run
  · obtain ⟨x, -, ran⟩ := bind_eq_ok.mp run
    split at ran
    · cases ran
      exact .integer ..
    · cases ran
      exact .float _
    · cases ran
      exact .double _
    · cases ran

theorem keyed_pick {wanted : Ordering → Bool} {left right v : Value} (first : left.Keyed)
    (second : right.Keyed) (run : pick wanted left right = .ok v) : v.Keyed := by
  unfold pick at run
  split at run
  · cases run
  · obtain ⟨order, -, cast⟩ := bind_eq_ok.mp run
    refine keyed_of_cast ?_ cast
    split
    · exact first
    · exact second

private theorem keyed_select {host : Host} {v : Value} {result : Operand Slot}
    (run : select host v = .ok result) : result.Keyed := by
  unfold select at run
  split at run
  · cases run
    exact Operand.keyed_single (slotKeyed_some (.entity _))
  · split at run
    · cases run
      exact Operand.keyed_single (slotKeyed_some (.entity _))
    · obtain ⟨found, -, equal⟩ := bind_eq_ok.mp run
      cases pure_eq_ok.mp equal
      refine Operand.keyed_spread fun slot member => ?_
      obtain ⟨e, -, rfl⟩ := List.mem_map.mp member
      exact slotKeyed_some (.entity e)
  · cases run

private theorem keyed_positionOf {host : Host} {v w : Value} (run : positionOf host v = .ok w) :
    w.Keyed := by
  obtain ⟨x, -, ran⟩ := bind_eq_ok.mp run
  split at ran
  · obtain ⟨p, -, equal⟩ := bind_eq_ok.mp ran
    cases pure_eq_ok.mp equal
    exact .position p
  · cases ran

private theorem keyed_randomBetween {host : Host} {low high v : Value}
    (run : randomBetween host low high = .ok v) : v.Keyed := by
  unfold randomBetween at run
  split at run
  · cases run
  · split at run
    · split at run
      · cases run
      · obtain ⟨unit, -, equal⟩ := bind_eq_ok.mp run
        cases pure_eq_ok.mp equal
        exact .integer ..
    · cases run

theorem keyed_apply {host : Host} {b : Builtin} {args : List Slot}
    (keyed : ∀ arg ∈ args, SlotKeyed arg) {result : Operand Slot}
    (run : b.apply host args = .ok result) : result.Keyed := by
  have one {x : Except EvalError Value} (each : ∀ v, x = .ok v → v.Keyed)
      (run : (fun v => Operand.single (some v)) <$> x = .ok result) : result.Keyed := by
    obtain ⟨v, ran, rfl⟩ := map_eq_ok.mp run
    exact Operand.keyed_single (slotKeyed_some (each v ran))
  cases b with
  | all => cases run
  | key | value =>
    obtain ⟨v, needed, ran⟩ := bind_eq_ok.mp run
    have whole := keyed_required keyed needed
    split at ran
    · cases ran
      first
        | exact Operand.keyed_single (keyed_entry_iff.mp whole).1
        | exact Operand.keyed_single (keyed_entry_iff.mp whole).2
    · cases ran
  | entries =>
    obtain ⟨v, needed, ran⟩ := bind_eq_ok.mp run
    exact keyed_entriesOf (keyed_required keyed needed) ran
  | keys =>
    obtain ⟨v, needed, ran⟩ := bind_eq_ok.mp run
    exact keyed_keysOf (keyed_required keyed needed) ran
  | values =>
    obtain ⟨v, needed, ran⟩ := bind_eq_ok.mp run
    exact keyed_valuesOf (keyed_required keyed needed) ran
  | size =>
    obtain ⟨v, needed, ran⟩ := bind_eq_ok.mp run
    exact one (fun w => keyed_sizeOf) ran
  | iter =>
    obtain ⟨v, needed, ran⟩ := bind_eq_ok.mp run
    exact one (fun w => keyed_iteratorOf (keyed_required keyed needed)) ran
  | typeOf =>
    simp only [apply] at run
    split at run
    · cases run
      exact Operand.keyed_single (slotKeyed_some (.string _))
    · cases run
      exact Operand.keyed_single (slotKeyed_some (.string _))
  | abs =>
    obtain ⟨v, needed, ran⟩ := bind_eq_ok.mp run
    exact one (fun w => keyed_magnitudeOf) ran
  | min | max =>
    obtain ⟨v, needed, ran⟩ := bind_eq_ok.mp run
    obtain ⟨w, neededToo, ran⟩ := bind_eq_ok.mp ran
    exact one (fun x => keyed_pick (keyed_required keyed needed) (keyed_required keyed neededToo)) ran
  | pos =>
    obtain ⟨x, -, ran⟩ := bind_eq_ok.mp run
    obtain ⟨y, -, ran⟩ := bind_eq_ok.mp ran
    obtain ⟨z, -, equal⟩ := bind_eq_ok.mp ran
    cases pure_eq_ok.mp equal
    exact Operand.keyed_single (slotKeyed_some (.position _))
  | entityPos =>
    obtain ⟨v, needed, ran⟩ := bind_eq_ok.mp run
    exact one (fun w => keyed_positionOf) ran
  | here =>
    cases run
    exact Operand.keyed_single (slotKeyed_some (.position _))
  | entity =>
    obtain ⟨v, needed, ran⟩ := bind_eq_ok.mp run
    exact keyed_select ran
  | random =>
    obtain ⟨unit, -, equal⟩ := bind_eq_ok.mp run
    cases pure_eq_ok.mp equal
    exact Operand.keyed_single (slotKeyed_some (.double _))
  | randomRange =>
    obtain ⟨v, needed, ran⟩ := bind_eq_ok.mp run
    obtain ⟨w, neededToo, ran⟩ := bind_eq_ok.mp ran
    exact one (fun x => keyed_randomBetween) ran

end Builtin

/-! ### Code -/

/-- Keys are apart in what the variables hold. -/
def Context.Keyed (context : Context) : Prop :=
  ∀ id slot, context.holding id = some slot → SlotKeyed slot

theorem Context.Keyed.within {context : Context} (stored : context.Keyed) (part : Nat) :
    (context.within part).Keyed := stored

theorem Context.Keyed.later {context : Context} (stored : context.Keyed) (parts : Nat) :
    (context.later parts).Keyed := stored

/-- Keys are apart in the constants of code. -/
def Code.Keyed (code : Code) : Prop := ∀ slot, Instruction.constant slot ∈ code → SlotKeyed slot

namespace Instruction

variable {context : Context} (stored : context.Keyed) {i : Instruction}
  (constant : ∀ slot, i = .constant slot → SlotKeyed slot)
include stored constant

theorem keyed_apply {args : List Slot} (keyed : ∀ arg ∈ args, SlotKeyed arg)
    {result : Operand Slot} (run : i.apply context args = .ok result) : result.Keyed := by
  cases i with
  | constant slot =>
    cases run
    exact Operand.keyed_single (constant slot rfl)
  | «variable» id =>
    obtain ⟨slot, loaded, rfl⟩ := map_eq_ok.mp run
    unfold Context.load at loaded
    split at loaded
    · rename_i held
      cases loaded
      exact Operand.keyed_single (stored id slot held)
    · cases loaded
  | unary op => exact keyed_operateSlot run
  | binary op => exact keyed_operateSlots (keyed_arg keyed 0) (keyed_arg keyed 1) run
  | cast ty =>
    obtain ⟨slot, cast, rfl⟩ := map_eq_ok.mp run
    exact Operand.keyed_single (slotKeyed_of_castSlot (keyed_arg keyed 0) cast)
  | list length =>
    obtain ⟨v, made, equal⟩ := bind_eq_ok.mp run
    cases pure_eq_ok.mp equal
    exact Operand.keyed_single (slotKeyed_some (keyed_ofLiteral keyed made))
  | entry =>
    cases run
    exact Operand.keyed_single (slotKeyed_some
      (keyed_ofHalves (keyed_arg keyed 0) (keyed_arg keyed 1)))
  | call b argc => exact Builtin.keyed_apply keyed run
  | allContents =>
    have read : Selector.all.read (args[0]?.getD none) = .ok result := run
    exact Selector.keyed_read (keyed_arg keyed 0) read
  | index =>
    have read : (Selector.index (args[1]?.getD none)).read (args[0]?.getD none) =
      .ok result := run
    exact Selector.keyed_read (keyed_arg keyed 0) read
  | optionalIndex =>
    have read : (Selector.optional (args[1]?.getD none)).read (args[0]?.getD none) =
      .ok result := run
    exact Selector.keyed_read (keyed_arg keyed 0) read
  | rangeIndex =>
    have read : (Selector.range (args[1]?.getD none) (args[2]?.getD none)).read
      (args[0]?.getD none) = .ok result := run
    exact Selector.keyed_read (keyed_arg keyed 0) read

theorem keyed_combine {operands : List (Operand Slot)}
    (keyed : ∀ operand ∈ operands, operand.Keyed) {result : Operand Slot}
    (run : i.combine context operands = .ok result) : result.Keyed := by
  unfold combine at run
  split at run
  · cases run
    exact Operand.keyed_concat keyed
  · exact Operand.keyed_fanOut (fun n args one each ran =>
      keyed_apply (stored.within n) constant each ran) keyed run

theorem keyed_step {stack stack' : Stack} (keyed : ∀ operand ∈ stack, operand.Keyed)
    (run : i.step context stack = .ok stack') : ∀ operand ∈ stack', operand.Keyed := by
  unfold step at run
  split at run
  · obtain ⟨result, combined, equal⟩ := bind_eq_ok.mp run
    cases pure_eq_ok.mp equal
    intro operand member
    rcases List.mem_cons.mp member with rfl | below
    · refine keyed_combine stored constant (fun taken inside => ?_) combined
      exact keyed taken (List.mem_of_mem_take (List.mem_reverse.mp inside))
    · exact keyed operand (List.mem_of_mem_drop below)
  · cases run

end Instruction

namespace Code

theorem keyed_runOn {context : Context} (stored : context.Keyed) {code : Code}
    (constants : code.Keyed) {stack stack' : Stack} (keyed : ∀ operand ∈ stack, operand.Keyed)
    (run : runOn context stack code = .ok stack') : ∀ operand ∈ stack', operand.Keyed := by
  induction code generalizing context stack with
  | nil =>
    cases run
    exact keyed
  | cons i rest ih =>
    rw [runOn_cons] at run
    obtain ⟨middle, stepped, others⟩ := bind_eq_ok.mp run
    have next : ∀ operand ∈ middle, operand.Keyed := by
      refine Instruction.keyed_step (stored.within 0) (fun slot same => ?_) keyed stepped
      exact constants slot (by rw [same]; exact List.mem_cons_self)
    have constantsRest : Code.Keyed rest :=
      fun slot member => constants slot (List.mem_cons_of_mem _ member)
    exact ih (stored.later 1) constantsRest next others

/-- Keys are apart in every value that code gives. -/
theorem keyed_execute {context : Context} (stored : context.Keyed) {code : Code}
    (constants : code.Keyed) {result : Operand Slot} (run : code.execute context = .ok result) :
    result.Keyed := by
  obtain ⟨stack, ran, last⟩ := bind_eq_ok.mp run
  have keyed := keyed_runOn stored constants (fun operand => by simp) ran
  split at last
  · cases last
    exact keyed _ List.mem_cons_self
  · cases last
  · cases last

end Code

end Immediate
