import Immediate.Proofs.Casting
import Immediate.Proofs.Machine
/-! Who is to blame for a failure. Casts, operators, functions and variables fail for reasons of their
own, and never say that code misuses the stack; unless the host does, only an instruction that finds too
few operands and an end with other than one operand do. So the depth that is counted ahead of a run
decides whether the run can blame the code, and whether it can succeed. -/
namespace Immediate

/-- Whether an error says that code misuses the stack. -/
@[simp] def EvalError.blamesCode : EvalError → Bool
  | .invalidCode _ => true
  | _ => false

namespace Outcome

variable {α β : Type}

/-- A failure, if there is one, does not say that code misuses the stack. -/
structure Blameless (r : Except EvalError α) : Prop where
  spared : ∀ e, r = .error e → e.blamesCode = false

namespace Blameless

@[simp] theorem ok (a : α) : Blameless (.ok a) := ⟨nofun⟩

theorem error {e : EvalError} (other : e.blamesCode = false) :
    Blameless (.error e : Except EvalError α) := by
  refine ⟨?_⟩
  rintro e' ⟨⟩
  exact other

@[simp] theorem error_iff {e : EvalError} :
    Blameless (.error e : Except EvalError α) ↔ e.blamesCode = false :=
  ⟨fun blameless => blameless.spared e rfl, error⟩

@[simp] theorem pure (a : α) : Blameless (Pure.pure a) := ok a

@[simp] theorem throw_iff {e : EvalError} :
    Blameless (throw e : Except EvalError α) ↔ e.blamesCode = false := error_iff

/-- What follows need only be blameless where it is reached. -/
theorem bind_of_ok {first : Except EvalError α} {next : α → Except EvalError β}
    (start : Blameless first) (others : ∀ a, first = .ok a → Blameless (next a)) :
    Blameless (first >>= next) := by
  refine ⟨fun e failed => ?_⟩
  rcases bind_eq_error.mp failed with early | ⟨a, reached, late⟩
  · exact start.spared e early
  · exact (others a reached).spared e late

theorem bind {first : Except EvalError α} {next : α → Except EvalError β} (start : Blameless first)
    (others : ∀ a, Blameless (next a)) : Blameless (first >>= next) :=
  start.bind_of_ok fun a _ => others a

theorem map {first : Except EvalError α} (start : Blameless first) (f : α → β) :
    Blameless (f <$> first) := start.bind fun a => .ok (f a)

theorem mapM {f : α → Except EvalError β} {members : List α}
    (each : ∀ a ∈ members, Blameless (f a)) : Blameless (members.mapM f) := by
  refine ⟨fun e failed => ?_⟩
  obtain ⟨a, member, failed⟩ := exists_of_mapM_error failed
  exact (each a member).spared e failed

theorem foldlM {f : β → α → Except EvalError β} (each : ∀ b a, Blameless (f b a)) (start : β)
    (members : List α) : Blameless (members.foldlM f start) := by
  induction members generalizing start with
  | nil => exact .ok start
  | cons a rest ih => exact (each start a).bind fun b => ih b

end Blameless
end Outcome

open Outcome

namespace Value

/-! ### Casts -/

theorem blameless_jointTy (values : List Value) : Blameless (jointTy values) := by
  refine .foldlM (fun joint v => ?_) none values
  cases joint with
  | none => exact .ok _
  | some t =>
    dsimp only
    cases Ty.join? t v.ty with
    | none => exact .error rfl
    | some joined => exact .ok _

theorem blameless_optionalTy (target source : Option Ty) (contents : List Value) :
    Blameless (optionalTy target source contents) := by
  unfold optionalTy
  split
  · exact .ok _
  · exact blameless_jointTy contents

theorem blameless_requiredTy {wanted : Wanted} {found : Ty} (target source : Option Ty)
    (contents : List Value) :
    Blameless (requiredTy (.incompatible wanted found) target source contents) := by
  unfold requiredTy
  split
  · exact .ok _
  · refine (blameless_jointTy contents).bind fun joint => ?_
    cases joint with
    | none => exact .error rfl
    | some t => exact .ok t

theorem blameless_castScalar (s : Scalar) (v : Value) : Blameless (castScalar s v) := by
  unfold castScalar
  split
  · exact .ok _
  · exact .error rfl

theorem blameless_castWhole (target : Ty) (v : Value) : Blameless (castWhole target v) := by
  unfold castWhole
  split
  · exact blameless_castScalar ..
  · exact .error rfl

theorem blameless_castUnits (target : Ty) (s : String) : Blameless (castUnits target s) :=
  .mapM fun _ _ => (blameless_castWhole ..).map _

theorem blameless_halfTys (target : Ty) (keyTy valueTy : Option Ty) (key value : Slot) :
    Blameless (halfTys target keyTy valueTy key value) := by
  unfold halfTys
  split
  · exact (blameless_optionalTy ..).bind fun _ => (blameless_optionalTy ..).bind fun _ => .ok _
  · exact .error rfl

theorem blameless_mapTys (source targetTy : Ty) (target declared : Option Ty × Option Ty)
    (pairs : List (Value × Slot)) : Blameless (mapTys source targetTy target declared pairs) :=
  (blameless_requiredTy ..).bind fun _ => (blameless_optionalTy ..).bind fun _ => .ok _

section Contents

/-- Every cast of a value is blameless. -/
def CastsBlamelessly (v : Value) : Prop := ∀ target, Blameless (cast target v)

private theorem blameless_castSlot_of {slot : Slot} (each : ∀ v ∈ slot, CastsBlamelessly v)
    (target : Option Ty) : Blameless (castSlot target slot) := by
  cases slot with
  | none => exact .ok none
  | some v =>
    cases target with
    | none => exact .ok _
    | some t => exact (each v rfl t).map some

private theorem blameless_castItems_of {items : List Slot}
    (each : ∀ slot ∈ items, ∀ v ∈ slot, CastsBlamelessly v) (target : Ty) :
    Blameless (castItems target items) := by
  rw [castItems_eq]
  exact .mapM fun slot member => blameless_castSlot_of (each slot member) _

private theorem blameless_castPairs_of {pairs : List (Value × Slot)}
    (keys : ∀ pair ∈ pairs, CastsBlamelessly pair.1)
    (values : ∀ pair ∈ pairs, ∀ v ∈ pair.2, CastsBlamelessly v) (keyTy : Ty)
    (valueTy : Option Ty) : Blameless (castPairs keyTy valueTy pairs) := by
  induction pairs with
  | nil => exact .ok []
  | cons pair rest ih =>
    obtain ⟨key, otherKeys⟩ := List.forall_mem_cons.mp keys
    obtain ⟨value, otherValues⟩ := List.forall_mem_cons.mp values
    exact (key keyTy).bind fun _ => (blameless_castSlot_of value _).bind fun _ =>
      (ih otherKeys otherValues).bind fun _ => .ok _

private theorem castsBlamelessly_entry (keyTy valueTy : Option Ty) {key value : Slot}
    (first : ∀ v ∈ key, CastsBlamelessly v) (second : ∀ v ∈ value, CastsBlamelessly v) :
    CastsBlamelessly (.entry keyTy valueTy key value) := fun _ =>
  (blameless_halfTys ..).bind fun _ => (blameless_castSlot_of first _).bind fun _ =>
    (blameless_castSlot_of second _).bind fun _ => .ok _

/-- Every cast of a value is blameless and, if this is an entry, every cast of its halves: a list of
entries may be cast as the map they make. -/
private structure PartsBlameless (v : Value) : Prop where
  whole : CastsBlamelessly v
  halves {keyTy valueTy : Option Ty} {key value : Slot} (form : v = .entry keyTy valueTy key value) :
    (∀ x ∈ key, CastsBlamelessly x) ∧ ∀ x ∈ value, CastsBlamelessly x

private theorem castsBlamelessly_sequence {v : Value} {element : Option Ty} {items : List Slot}
    (form : v = .list element items ∨ v = .iterator element items)
    (each : ∀ slot ∈ items, ∀ x ∈ slot, PartsBlameless x) : CastsBlamelessly v := by
  have casts (target : Ty) : Blameless (castItems target items) :=
    blameless_castItems_of (fun slot member x held => (each slot member x held).whole) target
  intro target
  cases target with
  | scalar s => rcases form with rfl | rfl <;> exact blameless_castScalar ..
  | list | iterator =>
    rcases form with rfl | rfl <;>
      exact (blameless_requiredTy ..).bind fun t => (casts t).map _
  | map wantedKey wantedValue =>
    cases made : pairsOfEntries? items with
    | none => rcases form with rfl | rfl <;> simp only [cast, made] <;> exact .error rfl
    | some pairs =>
      have parts (pair : Value × Slot) (member : pair ∈ pairs) :
          CastsBlamelessly pair.1 ∧ ∀ x ∈ pair.2, CastsBlamelessly x := by
        obtain ⟨keyTy, valueTy, inside⟩ := entry_of_mem_pairs made pair member
        obtain ⟨key, value⟩ := (each _ inside _ rfl).halves rfl
        exact ⟨key pair.1 rfl, value⟩
      have castsPairs (keyTy : Ty) (valueTy : Option Ty) :
          Blameless (castEntryPairs keyTy valueTy items) := by
        rw [castEntryPairs_eq made]
        exact blameless_castPairs_of (fun pair member => (parts pair member).1)
          (fun pair member => (parts pair member).2) keyTy valueTy
      rcases form with rfl | rfl <;> simp only [cast, made] <;>
        exact (blameless_mapTys ..).bind fun _ => ((castsPairs ..).map _).map _
  | entry => rcases form with rfl | rfl <;> exact .error rfl

private theorem castsBlamelessly_map (keyTy valueTy : Option Ty) {pairs : List (Value × Slot)}
    (keys : ∀ pair ∈ pairs, CastsBlamelessly pair.1)
    (values : ∀ pair ∈ pairs, ∀ v ∈ pair.2, CastsBlamelessly v) :
    CastsBlamelessly (.map keyTy valueTy pairs) := by
  have asEntries (t : Ty) : Blameless (castPairEntries t keyTy valueTy pairs) := by
    rw [castPairEntries_eq]
    refine blameless_castItems_of (fun slot member v held => ?_) t
    obtain ⟨⟨key, value⟩, inside, rfl⟩ := List.mem_map.mp member
    cases held
    refine castsBlamelessly_entry keyTy valueTy ?_ (values _ inside)
    rintro v ⟨⟩
    exact keys _ inside
  intro target
  cases target with
  | scalar s => exact blameless_castScalar ..
  | list wanted | iterator wanted => exact (asEntries _).map _
  | map wantedKey wantedValue =>
    exact (blameless_mapTys ..).bind fun _ =>
      ((blameless_castPairs_of keys values _ _).map _).map _
  | entry => exact .error rfl

private theorem partsBlameless (v : Value) : PartsBlameless v := by
  induction v with
  | integer | float | double | entity | position =>
    exact ⟨fun target => blameless_castWhole target _, nofun⟩
  | string s =>
    refine ⟨fun target => ?_, nofun⟩
    cases target with
    | list wanted | iterator wanted => exact (blameless_castUnits ..).map _
    | scalar s => exact blameless_castScalar ..
    | map | entry => exact .error rfl
  | list element items ih => exact ⟨castsBlamelessly_sequence (.inl rfl) ih, nofun⟩
  | iterator element items ih => exact ⟨castsBlamelessly_sequence (.inr rfl) ih, nofun⟩
  | map keyTy valueTy pairs keys values =>
    exact ⟨castsBlamelessly_map keyTy valueTy (fun pair member => (keys pair member).whole)
      fun pair member v held => (values pair member v held).whole, nofun⟩
  | entry keyTy valueTy key value keyHeld valueHeld =>
    have first (x : Value) (held : x ∈ key) := (keyHeld x held).whole
    have second (x : Value) (held : x ∈ value) := (valueHeld x held).whole
    refine ⟨castsBlamelessly_entry keyTy valueTy first second, ?_⟩
    rintro keyTy' valueTy' key' value' ⟨⟩
    exact ⟨first, second⟩

end Contents

theorem blameless_cast (target : Ty) (v : Value) : Blameless (cast target v) :=
  (partsBlameless v).whole target

theorem blameless_castSlot (target : Option Ty) (slot : Slot) : Blameless (castSlot target slot) :=
  blameless_castSlot_of (fun v _ t => blameless_cast t v) target

theorem blameless_castItems (target : Ty) (items : List Slot) : Blameless (castItems target items) :=
  blameless_castItems_of (fun _ _ v _ t => blameless_cast t v) target

/-! ### Operators -/

theorem blameless_integerOperation (width : Width) (op : BinaryOp) (a b : BitVec 64) :
    Blameless (integerOperation width op a b) := by
  cases op with
  | div | rem =>
    simp only [integerOperation]
    split
    · exact .error rfl
    · exact .ok _
  | range => exact .error rfl
  | _ => exact .ok _

theorem blameless_operateJoined (op : BinaryOp) (left right : Value) :
    Blameless (operateJoined op left right) := by
  unfold operateJoined
  split
  · exact blameless_integerOperation ..
  all_goals first
    | exact .error rfl
    | split <;> simp [unsupported]

theorem blameless_operate (op : BinaryOp) (left right : Value) :
    Blameless (operate op left right) := by
  unfold operate
  split
  · exact .error rfl
  · exact (blameless_cast ..).bind fun _ => (blameless_cast ..).bind fun _ =>
      blameless_operateJoined ..

theorem blameless_range (first last : Value) : Blameless (range first last) := by
  unfold range
  split
  · exact .ok _
  · exact .error rfl

theorem blameless_operateUnary (op : UnaryOp) (v : Value) : Blameless (operateUnary op v) := by
  unfold operateUnary
  split
  · exact .error rfl
  · refine (blameless_cast ..).bind fun w => ?_
    split <;> simp

theorem blameless_operateSlots (op : BinaryOp) (left right : Slot) :
    Blameless (operateSlots op left right) := by
  unfold operateSlots
  split
  · split
    · exact (blameless_range ..).map _
    · exact (blameless_operate ..).bind fun _ => .ok _
  · exact .error rfl

theorem blameless_operateSlot (op : UnaryOp) (slot : Slot) : Blameless (operateSlot op slot) := by
  unfold operateSlot
  split
  · exact (blameless_operateUnary ..).bind fun _ => .ok _
  · exact .error rfl

theorem blameless_order (left right : Value) : Blameless (order left right) := by
  unfold order
  split
  · exact .error rfl
  · refine (blameless_cast ..).bind fun _ => (blameless_cast ..).bind fun _ => ?_
    split
    · exact .ok _
    · exact .ok _
    · split
      · exact .ok _
      · exact .error rfl

/-! ### Literals -/

theorem blameless_ofEntryLiteral (pairs : List (Slot × Slot)) : Blameless (ofEntryLiteral pairs) := by
  refine (blameless_jointTy _).bind fun keyTy => (blameless_jointTy _).bind fun valueTy => ?_
  refine Blameless.bind (.mapM fun pair _ => ?_) fun _ => .ok _
  refine (blameless_castSlot ..).bind fun key => ?_
  cases key with
  | none => exact .error rfl
  | some key => exact (blameless_castSlot ..).bind fun _ => .ok _

theorem blameless_ofLiteral (items : List Slot) : Blameless (ofLiteral items) := by
  unfold ofLiteral
  split
  · exact blameless_ofEntryLiteral _
  · refine (blameless_jointTy _).bind fun joint => ?_
    cases joint with
    | none => exact .ok _
    | some t => exact (blameless_castItems ..).bind fun _ => .ok _

/-! ### Indices -/

theorem blameless_listPosition (index : Value) (length : Nat) :
    Blameless (listPosition index length) := by
  unfold listPosition
  split
  · exact .error rfl
  · dsimp only
    split
    · exact .error rfl
    · exact .ok _

theorem blameless_mapKey (keyTy : Option Ty) (index : Value) : Blameless (mapKey keyTy index) := by
  unfold mapKey
  split
  · exact blameless_cast ..
  · exact .ok _

theorem blameless_rangeWithin (first last : Value) (length : Nat) :
    Blameless (rangeWithin first last length) := by
  unfold rangeWithin
  split
  · exact .error rfl
  · split
    · exact .error rfl
    · dsimp only
      split <;> exact .ok _

theorem blameless_allContents (slot : Slot) : Blameless (allContents slot) := by
  unfold allContents
  split <;> simp

theorem blameless_indexed (target index : Slot) : Blameless (indexed target index) := by
  unfold indexed
  split
  · split
    · split
      · exact .ok _
      · refine (blameless_listPosition ..).bind fun position => ?_
        split
        · exact .ok _
        · exact .error rfl
    · split
      · exact .ok _
      · refine (blameless_listPosition ..).bind fun position => ?_
        split
        · exact .ok _
        · exact .error rfl
    · refine (blameless_mapKey ..).bind fun key => ?_
      split
      · exact .ok _
      · exact .error rfl
    · exact .error rfl
  · exact .error rfl

theorem blameless_optionallyIndexed (target index : Slot) :
    Blameless (optionallyIndexed target index) := by
  unfold optionallyIndexed
  split <;> exact .ok _

theorem blameless_rangeIndexed (target first last : Slot) :
    Blameless (rangeIndexed target first last) := by
  unfold rangeIndexed
  split
  · split
    · exact (blameless_rangeWithin ..).bind fun _ => .ok _
    · exact (blameless_rangeWithin ..).bind fun _ => .ok _
    · exact .error rfl
  · exact .error rfl

end Value

/-! ### Functions -/

/-- A host may fail as it likes, but does not say that code misuses the stack. -/
structure Host.Blameless (host : Host) : Prop where
  select : ∀ selector, Outcome.Blameless (host.select selector)
  positionOf : ∀ e, Outcome.Blameless (host.positionOf e)
  randomUnit : Outcome.Blameless host.randomUnit

namespace World

/-- At no moment does the host say that code misuses the stack. -/
def Blameless (world : World) : Prop := ∀ moment, (world moment).Blameless

theorem blameless_detached : World.detached.Blameless :=
  fun _ => ⟨fun _ => .error rfl, fun _ => .error rfl, .error rfl⟩

namespace Blameless

variable {world : World} (around : world.Blameless)
include around

theorem within (part : Nat) : (world.within part).Blameless := fun _ => around _

theorem later (parts : Nat) : (world.later parts).Blameless := by
  rintro (_ | ⟨part, moment⟩) <;> exact around _

end Blameless

end World

namespace Builtin

theorem blameless_required (b : Builtin) (args : List Slot) (position : Nat) :
    Blameless (required b args position) := by
  unfold required
  split
  · exact .ok _
  · exact .error rfl

theorem blameless_coordinate (b : Builtin) (args : List Slot) (position : Nat) :
    Blameless (coordinate b args position) := by
  refine (blameless_required ..).bind fun v => ?_
  split
  · exact .ok _
  · exact .error rfl

theorem blameless_entriesOf (v : Value) : Blameless (entriesOf v) := by
  unfold entriesOf
  split <;> simp

theorem blameless_keysOf (v : Value) : Blameless (keysOf v) := by
  unfold keysOf
  split <;> simp

theorem blameless_valuesOf (v : Value) : Blameless (valuesOf v) := by
  unfold valuesOf
  split <;> simp

theorem blameless_sizeOf (v : Value) : Blameless (sizeOf v) := by
  unfold sizeOf
  split
  · exact .ok _
  · split
    · exact .ok _
    · exact .error rfl

theorem blameless_iteratorOf (v : Value) : Blameless (iteratorOf v) := by
  unfold iteratorOf
  split <;> simp

theorem blameless_magnitudeOf (v : Value) : Blameless (magnitudeOf v) := by
  unfold magnitudeOf
  split
  · exact .error rfl
  · refine (Value.blameless_cast ..).bind fun w => ?_
    split <;> simp

theorem blameless_pick (wanted : Ordering → Bool) (left right : Value) :
    Blameless (pick wanted left right) := by
  unfold pick
  split
  · exact .error rfl
  · exact (Value.blameless_order ..).bind fun _ => Value.blameless_cast ..

section Hosts

variable {host : Host} (around : host.Blameless)
include around

theorem blameless_select (v : Value) : Blameless (select host v) := by
  unfold select
  split
  · exact .ok _
  · split
    · exact .ok _
    · exact (around.select _).bind fun _ => .ok _
  · exact .error rfl

theorem blameless_positionOf (v : Value) : Blameless (positionOf host v) := by
  refine (Value.blameless_cast ..).bind fun w => ?_
  split
  · exact (around.positionOf _).bind fun _ => .ok _
  · exact .error rfl

theorem blameless_randomBetween (low high : Value) :
    Blameless (randomBetween host low high) := by
  unfold randomBetween
  split
  · exact .error rfl
  · split
    · split
      · exact .error rfl
      · exact around.randomUnit.bind fun _ => .ok _
    · exact .error rfl

/-- Only a tuple for the function that strings operands together would be blamed on code. -/
theorem blameless_apply {b : Builtin} (other : b ≠ .all) (args : List Slot) :
    Blameless (b.apply host args) := by
  have needed := blameless_required b args
  cases b with
  | all => exact absurd rfl other
  | key | value =>
    refine (needed 0).bind fun v => ?_
    split
    · exact .ok _
    · exact .error rfl
  | entries => exact (needed 0).bind blameless_entriesOf
  | keys => exact (needed 0).bind blameless_keysOf
  | values => exact (needed 0).bind blameless_valuesOf
  | size => exact (needed 0).bind fun v => (blameless_sizeOf v).map _
  | iter => exact (needed 0).bind fun v => (blameless_iteratorOf v).map _
  | typeOf =>
    simp only [apply]
    split <;> exact .ok _
  | abs => exact (needed 0).bind fun v => (blameless_magnitudeOf v).map _
  | min | max =>
    exact (needed 0).bind fun v => (needed 1).bind fun w => (blameless_pick _ v w).map _
  | pos =>
    exact (blameless_coordinate ..).bind fun _ => (blameless_coordinate ..).bind fun _ =>
      (blameless_coordinate ..).bind fun _ => .ok _
  | entityPos => exact (needed 0).bind fun v => (blameless_positionOf around v).map _
  | here => exact .ok _
  | entity => exact (needed 0).bind fun v => blameless_select around v
  | random => exact around.randomUnit.bind fun _ => .ok _
  | randomRange =>
    exact (needed 0).bind fun v => (needed 1).bind fun w => (blameless_randomBetween around v w).map _

end Hosts

end Builtin

/-! ### Code -/

theorem Operand.blameless_fanOut {α β : Type} {operation : Nat → List α → Except EvalError (Operand β)}
    (each : ∀ n args, Blameless (operation n args)) (operands : List (Operand α)) :
    Blameless (fanOut operation operands) := by
  unfold fanOut
  cases tuples operands with
  | single args => exact each 0 args
  | many s => exact .ok _

theorem Context.blameless_load (context : Context) (id : VariableId) :
    Blameless (context.load id) := by
  unfold load
  split
  · exact .ok _
  · exact .error rfl

namespace Instruction

section Contexts

variable {context : Context} (around : context.world.Blameless)
include around

theorem blameless_apply {i : Instruction} (other : ∀ argc, i ≠ .call .all argc) (args : List Slot) :
    Blameless (i.apply context args) := by
  cases i with
  | constant slot => exact .ok _
  | «variable» id => exact (context.blameless_load id).map _
  | unary op => exact Value.blameless_operateSlot ..
  | binary op => exact Value.blameless_operateSlots ..
  | cast ty => exact (Value.blameless_castSlot ..).map _
  | list length => exact (Value.blameless_ofLiteral args).bind fun _ => .ok _
  | entry => exact .ok _
  | call b argc => exact Builtin.blameless_apply (around []) (fun all => other argc (all ▸ rfl)) args
  | allContents => exact Value.blameless_allContents _
  | index => exact Value.blameless_indexed ..
  | optionalIndex => exact Value.blameless_optionallyIndexed ..
  | rangeIndex => exact Value.blameless_rangeIndexed ..

theorem blameless_combine (i : Instruction) (operands : List (Operand Slot)) :
    Blameless (i.combine context operands) := by
  unfold combine
  split
  · exact .ok _
  · rename_i other
    exact Operand.blameless_fanOut (fun n => blameless_apply (around.within n) other) operands

/-- An instruction that finds its operands does not blame the code. -/
theorem blameless_step {i : Instruction} {stack : Stack} (enough : i.consumes ≤ stack.length) :
    Blameless (i.step context stack) := by
  rw [step, if_pos enough]
  exact (blameless_combine around ..).bind fun _ => .ok _

end Contexts

theorem consumes_le_of_step {context : Context} {i : Instruction} {stack stack' : Stack}
    (run : i.step context stack = .ok stack') : i.consumes ≤ stack.length := by
  unfold step at run
  split at run
  · assumption
  · cases run

end Instruction

namespace Code

theorem blameless_runOn {context : Context} (around : context.world.Blameless) {stack : Stack}
    {code : Code} {depth : Nat} (balanced : depthFrom stack.length code = some depth) :
    Blameless (runOn context stack code) := by
  induction code generalizing context stack with
  | nil => exact .ok stack
  | cons i rest ih =>
    obtain ⟨enough, others⟩ := depthFrom_cons balanced
    have first : (context.within 0).world.Blameless := around.within 0
    refine (Instruction.blameless_step first enough).bind_of_ok fun stack' run =>
      ih (around.later 1) ?_
    rw [Instruction.length_step enough run]
    exact others

/-- A run that comes to its end leaves as many operands as were counted ahead. -/
theorem depthFrom_of_runOn {context : Context} {stack stack' : Stack} {code : Code}
    (run : runOn context stack code = .ok stack') :
    depthFrom stack.length code = some stack'.length := by
  induction code generalizing context stack with
  | nil =>
    cases run
    rfl
  | cons i rest ih =>
    rw [runOn_cons] at run
    obtain ⟨middle, first, last⟩ := bind_eq_ok.mp run
    have enough := Instruction.consumes_le_of_step first
    rw [depthFrom, if_pos enough, ← Instruction.length_step enough first]
    exact ih last

theorem depth?_of_execute {context : Context} {code : Code} {result : Operand Slot}
    (run : code.execute context = .ok result) : code.depth? = some 1 := by
  obtain ⟨stack, ran, last⟩ := bind_eq_ok.mp run
  have counted := depthFrom_of_runOn ran
  split at last
  · exact counted
  · cases last
  · cases last

theorem blameless_execute {context : Context} (around : context.world.Blameless) {code : Code}
    (balanced : code.depth? = some 1) : Blameless (code.execute context) := by
  have counted : depthFrom ([] : Stack).length code = some 1 := balanced
  refine (blameless_runOn around counted).bind_of_ok fun stack run => ?_
  obtain ⟨result, rfl⟩ := List.length_eq_one_iff.mp (length_runOn counted run)
  exact .ok result

/-- Code that is counted to leave one operand gives it, or fails for another reason than that it
misuses the stack, if the host does not say so of itself. All other code fails wherever it is run. -/
theorem outcome_of_depth (context : Context) (code : Code) :
    (context.world.Blameless → code.depth? = some 1 →
      ∀ imbalance, code.execute context ≠ .error (.invalidCode imbalance)) ∧
      (code.depth? ≠ some 1 → ∃ e, code.execute context = .error e) := by
  refine ⟨fun around balanced imbalance failed => ?_, fun unbalanced => ?_⟩
  · cases (blameless_execute around balanced).spared _ failed
  · cases run : code.execute context with
    | error e => exact ⟨e, rfl⟩
    | ok result => exact absurd (depth?_of_execute run) unbalanced

theorem outcome_of_depth_divided :
    let divided : Code :=
      [.constant (some (.integer .int 7)), .constant (some (.integer .int 0)), .binary .div]
    World.detached.Blameless ∧
      (divided.depth? = some 1 ∧
        ∀ imbalance, divided.execute .empty ≠ .error (.invalidCode imbalance)) ∧
      (Code.depth? (divided.take 2) = some 2 ∧ ∃ e, Code.execute .empty (divided.take 2) = .error e) ∧
      (Code.depth? (divided.drop 1) = none ∧ ∃ e, Code.execute .empty (divided.drop 1) = .error e) := by
  refine ⟨World.blameless_detached, ⟨rfl, ?_⟩, ⟨rfl, ?_⟩, ⟨rfl, ?_⟩⟩
  · exact (outcome_of_depth .empty _).1 World.blameless_detached rfl
  · exact (outcome_of_depth .empty _).2 (by decide)
  · exact (outcome_of_depth .empty _).2 (by decide)

end Code
end Immediate
