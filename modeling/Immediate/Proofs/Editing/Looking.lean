import Immediate.Editing.Workspace
/-! Work that only looks. Most of what a path does is to look at the store and to report errors:
its result hangs on the store alone and it leaves the store as it was. Such work in sequence can be
read as a computation without state. -/
namespace Immediate.Edit

variable {α β : Type}

/-- What work gives that starts in a workspace. -/
def result (x : Edit α) (w : Workspace) : Except EvalError α := ((ExceptT.run x).run w).1

/-- The workspace it leaves. -/
def after (x : Edit α) (w : Workspace) : Workspace := ((ExceptT.run x).run w).2

theorem result_pure (a : α) (w : Workspace) : (pure a : Edit α).result w = .ok a := rfl

theorem after_pure (a : α) (w : Workspace) : (pure a : Edit α).after w = w := rfl

theorem result_lift (r : Except EvalError α) (w : Workspace) : (liftM r : Edit α).result w = r := rfl

theorem after_lift (r : Except EvalError α) (w : Workspace) : (liftM r : Edit α).after w = w := rfl

theorem result_store (w : Workspace) : store.result w = .ok w.store := rfl

theorem after_store (w : Workspace) : store.after w = w := rfl

theorem result_setStore (s : Store) (w : Workspace) : (setStore s).result w = .ok () := rfl

theorem after_setStore (s : Store) (w : Workspace) :
    (setStore s).after w = { w with store := s } := rfl

theorem result_change (id : VariableId) (location : Location) (w : Workspace) :
    (change id location).result w = .ok () := rfl

theorem after_change (id : VariableId) (location : Location) (w : Workspace) :
    (change id location).after w = { w with changes := w.changes ++ [(id, location)] } := rfl

theorem result_bind (x : Edit α) (f : α → Edit β) (w : Workspace) :
    (x >>= f).result w = x.result w >>= fun a => (f a).result (x.after w) := by
  unfold result after
  rw [ExceptT.run_bind]
  simp only [StateT.run_bind]
  rcases (ExceptT.run x).run w with ⟨r, w'⟩
  cases r <;> rfl

theorem after_bind (x : Edit α) (f : α → Edit β) (w : Workspace) :
    (x >>= f).after w = match x.result w with
      | .ok a => (f a).after (x.after w)
      | .error _ => x.after w := by
  unfold result after
  rw [ExceptT.run_bind]
  simp only [StateT.run_bind]
  rcases (ExceptT.run x).run w with ⟨r, w'⟩
  cases r <;> rfl

/-! ### Looking -/

/-- Work that reads nothing of a workspace but its store and writes nothing but reports. -/
structure Looks (x : Edit α) : Prop where
  store : ∀ w, (x.after w).store = w.store
  changes : ∀ w, (x.after w).changes = w.changes
  result : ∀ w w', w.store = w'.store → x.result w = x.result w'

namespace Looks

theorem pure (a : α) : Looks (Pure.pure a) := ⟨fun _ => rfl, fun _ => rfl, fun _ _ _ => rfl⟩

theorem throw (e : EvalError) : Looks (MonadExcept.throw e : Edit α) :=
  ⟨fun _ => rfl, fun _ => rfl, fun _ _ _ => rfl⟩

theorem lift (r : Except EvalError α) : Looks (liftM r : Edit α) :=
  ⟨fun _ => rfl, fun _ => rfl, fun _ _ _ => rfl⟩

theorem report (errors : List EvalError) : Looks (Edit.report errors) :=
  ⟨fun _ => rfl, fun _ => rfl, fun _ _ _ => rfl⟩

theorem ofStore : Looks Edit.store :=
  ⟨fun _ => rfl, fun _ => rfl, fun _ _ same => congrArg Except.ok same⟩

theorem bind {x : Edit α} {f : α → Edit β} (first : Looks x) (others : ∀ a, Looks (f a)) :
    Looks (x >>= f) := by
  refine ⟨fun w => ?_, fun w => ?_, fun w w' same => ?_⟩
  · rw [after_bind]
    cases x.result w with
    | error e => exact first.store w
    | ok a => exact ((others a).store _).trans (first.store w)
  · rw [after_bind]
    cases x.result w with
    | error e => exact first.changes w
    | ok a => exact ((others a).changes _).trans (first.changes w)
  · rw [result_bind, result_bind, first.result w w' same]
    cases x.result w' with
    | error e => rfl
    | ok a =>
      refine (others a).result _ _ ?_
      rw [first.store, first.store, same]

end Looks

/-- After work that looks, other work sees the same store. -/
theorem result_bind_of_looks {x : Edit α} {f : α → Edit β} (first : Looks x)
    (others : ∀ a, Looks (f a)) (w : Workspace) :
    (x >>= f).result w = x.result w >>= fun a => (f a).result w := by
  rw [result_bind]
  exact congrArg _ (funext fun a => (others a).result _ _ (first.store w))

theorem result_lift_bind (r : Except EvalError α) (f : α → Edit β) (w : Workspace) :
    ((liftM r : Edit α) >>= f).result w = r >>= fun a => (f a).result w := by
  cases r <;> rfl

/-! ### The parts of evaluation -/

theorem looks_context (world : World) : Looks (context world) := Looks.ofStore.bind fun _ => Looks.pure _

theorem looks_drain (operand : Operand Slot) : Looks (drain operand) :=
  (Looks.report operand.drain.1).bind fun _ => Looks.pure operand.drain.2

theorem looks_run (world : World) (code : Code) : Looks (run world code) := by
  refine (looks_context world).bind fun context => (Looks.lift _).bind fun operand => looks_drain operand

theorem result_run (world : World) (code : Code) (w : Workspace) :
    (run world code).result w =
      (fun operand => operand.drain.2) <$> code.execute (w.store.context world) := by
  unfold run
  rw [result_bind_of_looks (looks_context world)
    fun context => (Looks.lift (code.execute context)).bind looks_drain]
  change ((liftM (code.execute (w.store.context world)) : Edit _) >>= drain).result w = _
  rw [result_lift_bind]
  cases code.execute (w.store.context world) <;> rfl

theorem looks_evaluate (world : World) (e : Expression) : Looks (evaluate world e) :=
  (looks_context world).bind fun _ => (Looks.lift _).bind looks_drain

theorem looks_compare (world : World) (left : Expression) (op : CompareOp) (right : Expression) :
    Looks (compare world left op right) :=
  (looks_context world).bind fun _ => (Looks.lift _).bind fun _ => (Looks.lift _).bind fun _ =>
    (Looks.lift _).bind fun compared => (Looks.report compared.1).bind fun _ => Looks.pure compared.2

theorem looks_settle (isStream : Bool) (r : Except EvalError α) : Looks (settle isStream r) := by
  unfold settle
  cases r with
  | ok a => exact Looks.pure (some a)
  | error e =>
    cases isStream with
    | true => exact (Looks.report [e]).bind fun _ => Looks.pure none
    | false => exact Looks.throw e

theorem result_settle (isStream : Bool) (r : Except EvalError α) (w : Workspace) :
    (settle isStream r).result w =
      match r with
      | .ok a => .ok (some a)
      | .error e => if isStream then .ok none else .error e := by
  cases r with
  | ok a => rfl
  | error e => cases isStream <;> rfl

theorem after_settle (isStream : Bool) (r : Except EvalError α) (w : Workspace) :
    (settle isStream r).after w =
      match r with
      | .ok _ => w
      | .error e => if isStream then { w with reports := w.reports ++ [e] } else w := by
  cases r with
  | ok a => rfl
  | error e => cases isStream <;> rfl

end Immediate.Edit
