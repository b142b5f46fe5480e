import Immediate.Proofs.Editing.Changing
import Immediate.Script.Run
/-! Failed commands. What was written before an error stays written, so a failed command leaves the
variables alone only if nothing can fail after its first write. Several writes are made where a path
leads to a stream of locations, and there errors are reported and do not end the work. Everywhere else
a path leads to a single location. -/
namespace Immediate

open Edit Outcome

/-- The variables and the noted changes are as they were. Marks and reports may have been added. -/
structure Workspace.Spared (before after : Workspace) : Prop where
  slots : after.store.slots = before.store.slots
  changes : after.changes = before.changes

namespace Workspace.Spared

variable {w w' w'' : Workspace}

theorem refl (w : Workspace) : w.Spared w := ⟨rfl, rfl⟩

theorem trans (first : w.Spared w') (second : w'.Spared w'') : w.Spared w'' :=
  ⟨second.slots.trans first.slots, second.changes.trans first.changes⟩

end Workspace.Spared

/-! ### Work that spares the variables -/

namespace Work

variable {ε α β : Type} {x : Work ε α} {f : α → Work ε β} {w : Workspace}

/-- Whatever comes of some work, it leaves the variables alone. -/
def Keeps (x : Work ε α) : Prop := ∀ w : Workspace, w.Spared (x.run.run w).2

/-- In a workspace, some work leaves the variables alone if it fails. -/
def Spares (x : Work ε α) (w : Workspace) : Prop :=
  ∀ e w', x.run.run w = (.error e, w') → w.Spared w'

theorem run_bind (x : Work ε α) (f : α → Work ε β) (w : Workspace) :
    (x >>= f).run.run w = match x.run.run w with
      | (.ok a, w') => (f a).run.run w'
      | (.error e, w') => (.error e, w') := by
  rw [ExceptT.run_bind]
  simp only [StateT.run_bind]
  rcases x.run.run w with ⟨r, w'⟩
  cases r <;> rfl

theorem Keeps.spares (keeps : x.Keeps) (w : Workspace) : x.Spares w := by
  intro e w' ran
  have kept := keeps w
  rwa [ran] at kept

theorem Keeps.pure (a : α) : (Pure.pure a : Work ε α).Keeps := Workspace.Spared.refl

theorem Keeps.bind (first : x.Keeps) (others : ∀ a, (f a).Keeps) : (x >>= f).Keeps := by
  intro w
  have kept := first w
  rw [run_bind]
  rcases ran : x.run.run w with ⟨r, w'⟩
  rw [ran] at kept
  cases r with
  | error e => exact kept
  | ok a => exact kept.trans (others a w')

/-- Nothing is written before the part that may fail and write. -/
theorem Spares.after (kept : w.Spared (x.run.run w).2)
    (next : ∀ a w', x.run.run w = (.ok a, w') → (f a).Spares w') : (x >>= f).Spares w := by
  intro e w'' ran
  rw [run_bind] at ran
  rcases first : x.run.run w with ⟨r, w'⟩
  rw [first] at kept ran
  cases r with
  | error e' =>
    cases ran
    exact kept
  | ok a => exact kept.trans (next a w' first e w'' ran)

/-- Nothing fails after the part that may fail and write. -/
theorem Spares.before (spares : x.Spares w)
    (rest : ∀ a w', ∃ b w'', (f a).run.run w' = (.ok b, w'')) : (x >>= f).Spares w := by
  intro e w'' ran
  rw [run_bind] at ran
  rcases first : x.run.run w with ⟨r, w'⟩
  rw [first] at ran
  cases r with
  | error e' =>
    cases ran
    exact spares _ _ first
  | ok a =>
    obtain ⟨b, left, finished⟩ := rest a w'
    cases finished.symm.trans ran

end Work

theorem Edit.Looks.keeps {α : Type} {x : Edit α} (looks : Looks x) : x.Keeps :=
  fun w => ⟨congrArg Store.slots (looks.store w), looks.changes w⟩

/-! ### Single locations -/

namespace Value

variable {creating : Bool} {steps : List Step}

private theorem length_of_indexSteps {parent : Value} {index : Slot}
    (selected : indexSteps creating parent index = .ok (steps, false)) : steps.length = 1 := by
  cases index with
  | none => cases selected
  | some v =>
    cases parent with
    | map keyTy valueTy pairs =>
      obtain ⟨named, -, rest⟩ := bind_eq_ok.mp selected
      split at rest
      · cases rest
      · cases rest
        rfl
    | list element items | iterator element items =>
      cases v with
      | map => cases selected
      | _ =>
        obtain ⟨i, -, rest⟩ := bind_eq_ok.mp selected
        split at rest
        · cases rest
        · cases rest
          rfl
    | _ => cases selected

theorem length_of_selectedSteps {selector : Selector} {parent : Slot}
    (selected : selectedSteps creating selector parent = .ok (steps, false)) : steps.length = 1 := by
  cases parent with
  | none => cases selected
  | some parent =>
    cases selector with
    | all => cases parent <;> cases selected
    | index slot => exact length_of_indexSteps selected
    | optional slot =>
      simp only [selectedSteps] at selected
      split at selected <;> cases selected
    | range first last =>
      cases first with
      | none => cases selected
      | some low =>
        cases last with
        | none => cases selected
        | some high =>
          cases parent with
          | list | iterator =>
            obtain ⟨bounds, -, equal⟩ := bind_eq_ok.mp selected
            cases pure_eq_ok.mp equal
          | _ => cases selected
    | entryKey | entryValue =>
      cases parent with
      | entry =>
        cases selected
        rfl
      | _ => cases selected

end Value

namespace Targets

variable {world : World} {creating : Bool} {root : Slot} {targets reached : Targets} {w : Workspace}

/-- Once a stream, always a stream; and without one, every selector gives a single location. -/
theorem length_of_stepFrom {pairs : List (Location × Selector)}
    (run : (stepFrom creating root targets pairs).result w = .ok reached)
    (single : reached.isStream = false) : targets.isStream = false ∧
      reached.locations.length = targets.locations.length + pairs.length := by
  induction pairs generalizing targets with
  | nil =>
    cases run
    exact ⟨single, rfl⟩
  | cons pair rest ih =>
    obtain ⟨location, selector⟩ := pair
    rw [result_stepFrom_cons] at run
    cases given : found creating root location selector with
    | ok found =>
      obtain ⟨steps, isStream⟩ := found
      rw [given] at run
      obtain ⟨unfanned, long⟩ := ih run
      obtain ⟨before, alone⟩ := Bool.or_eq_false_iff.mp unfanned
      cases alone
      obtain ⟨parent, -, selected⟩ := bind_eq_ok.mp given
      have one := Value.length_of_selectedSteps selected
      refine ⟨before, long.trans ?_⟩
      simp only [further, List.length_append, List.length_map, List.length_cons]
      omega
    | error e =>
      rw [given] at run
      cases stream : targets.isStream with
      | false =>
        rw [stream] at run
        cases run
      | true =>
        rw [stream] at run
        have unfanned := (ih run).1
        rw [stream] at unfanned
        cases unfanned

theorem length_pairUp {selectors : Selectors} (unfanned : selectors.fans = false) :
    (targets.pairUp selectors).length = targets.locations.length := by
  cases selectors with
  | one selector => exact List.length_map ..
  | many selectors => cases unfanned

theorem length_of_follow {accessors : List Accessor}
    (run : (follow world creating root targets accessors).result w = .ok reached)
    (single : reached.isStream = false) : targets.isStream = false ∧
      reached.locations.length = targets.locations.length := by
  induction accessors generalizing world targets with
  | nil =>
    cases run
    exact ⟨single, rfl⟩
  | cons accessor rest ih =>
    rw [result_follow_cons] at run
    obtain ⟨selectors, -, stepped⟩ := bind_eq_ok.mp run
    obtain ⟨middle, step, others⟩ := bind_eq_ok.mp stepped
    obtain ⟨unfanned, long⟩ := ih others
    obtain ⟨either, stepped⟩ := length_of_stepFrom step unfanned
    obtain ⟨before, unspread⟩ := Bool.or_eq_false_iff.mp either
    refine ⟨before, ?_⟩
    rw [long, stepped, length_pairUp unspread, List.length_nil, Nat.zero_add]

end Targets

namespace Path

variable {world : World} {w : Workspace}

/-- A path that leads to no stream leads to one location. -/
theorem length_of_resolve {creating : Bool} {p : Path} {targets : Targets}
    (run : (p.resolve world creating).result w = .ok targets) (single : targets.isStream = false) :
    targets.locations.length = 1 := by
  rw [result_resolve] at run
  obtain ⟨t, -, followed⟩ := bind_eq_ok.mp run
  exact (Targets.length_of_follow followed single).2

theorem length_of_assignments {targets : Targets} {values : Evaluated}
    {assigned : List (Location × Slot)} (paired : assignments targets values = .ok assigned)
    (single : targets.isStream = false) : assigned.length = targets.locations.length := by
  cases values with
  | single slot =>
    cases paired
    exact List.length_map ..
  | many slots =>
    simp only [assignments, single] at paired
    cases paired

/-! ### Edits -/

/-- Changes fail only if they make no stream; then there is one of them, and it wrote nothing. -/
theorem spares_changeEach {base : VariableId} {isStream : Bool}
    {changes : List (Location × Alteration)} {t : TypedValue} (held : w.store.find? base = some t)
    (one : isStream = false → changes.length = 1) :
    (changeEach base isStream changes).Spares w := by
  intro e w' ran
  have failed : (changeEach base isStream changes).result w = .error e := congrArg Prod.fst ran
  have left : (changeEach base isStream changes).after w = w' := congrArg Prod.snd ran
  cases isStream with
  | true =>
    -- In a stream a failure is passed over, so the changes as a whole do not fail.
    obtain ⟨done, -, ended⟩ := left_of_changeEach true changes held
    rw [failed] at ended
    cases ended with
    | failed single => cases single
  | false =>
    obtain ⟨⟨location, change⟩, rfl⟩ := List.length_eq_one_iff.mp (one rfl)
    rw [result_changeEach_cons held] at failed
    rw [after_changeEach_cons held] at left
    cases changed : change t with
    | ok altered =>
      obtain ⟨u, flag⟩ := altered
      rw [changed] at failed
      cases flag <;> cases failed
    | error e' =>
      rw [changed] at left
      cases left
      exact .refl w

theorem spares_changing {base : VariableId} {isStream : Bool}
    {changes : List (Location × Alteration)} {t : TypedValue} (held : w.store.find? base = some t)
    (one : isStream = false → changes.length = 1) :
    (changing base isStream changes).Spares w := by
  refine .after (Looks.ofStore.keeps w) fun store w₁ read => ?_
  cases read
  refine .after ((Looks.lift _).keeps w) fun fetched w₂ taken => ?_
  obtain ⟨u, marked⟩ := fetched
  have equal : w.store.fetch base = .ok (u, marked) := congrArg Prod.fst taken
  cases congrArg Prod.snd taken
  rw [Store.fetch, Store.peek_eq_ok.mpr held] at equal
  cases equal
  -- Taking the variable marks it and touches no slot.
  have kept : w.Spared { w with store := w.store.mark base } := ⟨rfl, rfl⟩
  refine .after kept fun _ w₃ stored => ?_
  cases stored
  exact spares_changeEach held one

theorem find?_after_resolve {creating : Bool} {p : Path} {targets : Targets}
    (run : (p.resolve world creating).result w = .ok targets) :
    ∃ t, ((p.resolve world creating).after w).store.find? p.base = some t := by
  rw [(looks_resolve world creating p).store w]
  exact find?_of_resolve run

theorem spares_set (world : World) (p : Path) (values : Evaluated) (w : Workspace) :
    (p.set world values).Spares w := by
  refine .after ((looks_resolve world true p).keeps w) fun targets w₁ ran => ?_
  have resolved : (p.resolve world true).result w = .ok targets := congrArg Prod.fst ran
  obtain ⟨t, held⟩ := find?_after_resolve resolved
  cases congrArg Prod.snd ran
  refine .after ((Looks.lift _).keeps _) fun assigned w₂ ran => ?_
  have paired : assignments targets values = .ok assigned := congrArg Prod.fst ran
  cases congrArg Prod.snd ran
  refine spares_changing held fun single => ?_
  rw [List.length_map, length_of_assignments paired single, length_of_resolve resolved single]

theorem spares_removingSlots (world : World) (p : Path) (w : Workspace) :
    (removingSlots world p).Spares w := by
  refine .after ((looks_resolve world false p).keeps w) fun targets w₁ ran => ?_
  have resolved : (p.resolve world false).result w = .ok targets := congrArg Prod.fst ran
  obtain ⟨t, held⟩ := find?_after_resolve resolved
  cases congrArg Prod.snd ran
  refine spares_changing held fun single => ?_
  rw [List.length_map, List.length_reverse, length_of_resolve resolved single]

theorem spares_remove (world : World) (p : Path) (w : Workspace) : (p.remove world).Spares w := by
  cases last : p.accessors.getLast? with
  | none =>
    simp only [remove, last]
    refine .after (Looks.ofStore.keeps w) fun store w₁ _ => ?_
    exact .before ((Looks.lift _).keeps.spares w₁) fun removed w₂ => ⟨1, _, rfl⟩
  | some accessor =>
    cases accessor with
    | entryKey | entryValue =>
      simp only [remove, last]
      exact (Looks.throw _).keeps.spares w
    | _ =>
      simp only [remove, last]
      exact spares_removingSlots world p w

end Path

/-! ### Commands -/

namespace ScriptWork

variable {α ε : Type}

theorem keeps_take (wrap : ε → ScriptError) (r : Except ε α) : (take wrap r).Keeps := by
  cases r with
  | ok a => exact .pure a
  | error e => exact Workspace.Spared.refl

theorem run_edit (work : Edit α) (w : Workspace) : (edit work).run.run w =
    ((work.result w).mapError .eval, work.after w) := rfl

theorem keeps_edit {work : Edit α} (keeps : work.Keeps) : (edit work).Keeps := keeps

theorem spares_edit {work : Edit α} {w : Workspace} (spares : work.Spares w) :
    (edit work).Spares w := by
  intro e w' ran
  rw [run_edit] at ran
  cases ended : work.result w with
  | ok a =>
    rw [ended] at ran
    cases ran
  | error e' =>
    rw [ended] at ran
    cases ran
    exact spares e' _ (Prod.ext ended rfl)

theorem keeps_store : store.Keeps := keeps_edit Looks.ofStore.keeps

theorem keeps_evaluate (o : CompileOptions) (world : World) (source : String) :
    (evaluate o world source).Keeps :=
  (keeps_take _ _).bind fun e => keeps_edit (looks_evaluate world e).keeps

theorem keeps_compare (o : CompileOptions) (world : World) (left : String) (op : CompareOp)
    (right : String) : (compare o world left op right).Keeps :=
  (keeps_take _ _).bind fun left => (keeps_take _ _).bind fun right =>
    keeps_edit (looks_compare world left op right).keeps

end ScriptWork

namespace Command

open ScriptWork

theorem spares_execute (o : CompileOptions) (world : World) (command : Command) (w : Workspace) :
    (command.execute o world).Spares w := by
  cases command with
  | add id ty =>
    refine .after (keeps_take _ _ w) fun id w₁ _ => ?_
    refine .after (keeps_take _ _ w₁) fun ty w₂ _ => ?_
    refine .before (spares_edit ?_) fun _ w' => ⟨none, w', rfl⟩
    refine .after (Looks.ofStore.keeps w₂) fun store w₃ _ => ?_
    exact .before ((Looks.lift _).keeps.spares w₃) fun declared _ => ⟨(), _, rfl⟩
  | set path expression =>
    refine .after (keeps_evaluate o (world.within 0) expression w) fun values w₁ _ => ?_
    refine .after (keeps_take _ _ w₁) fun p w₂ _ => ?_
    exact .before (spares_edit (p.spares_set (world.within 1) values w₂)) fun _ w' => ⟨_, w', rfl⟩
  | remove path =>
    refine .after (keeps_take _ _ w) fun p w₁ _ => ?_
    exact .before (spares_edit (p.spares_remove world w₁)) fun _ w' => ⟨_, w', rfl⟩
  | get path =>
    refine .after (keeps_take _ _ w) fun p w₁ _ => ?_
    exact .before ((keeps_edit (looks_run world p.code).keeps).spares w₁) fun _ w' => ⟨_, w', rfl⟩
  | eval expression =>
    exact .before ((keeps_evaluate o world expression).spares w) fun _ w' => ⟨_, w', rfl⟩
  | list => exact .before (keeps_store.spares w) fun _ w' => ⟨_, w', rfl⟩
  | compare left op right =>
    exact .before ((keeps_compare o world left op right).spares w) fun _ w' => ⟨_, w', rfl⟩
  | encode id =>
    refine .after (keeps_take _ _ w) fun id w₁ _ => ?_
    refine .after (keeps_store w₁) fun store w₂ _ => ?_
    refine .after (keeps_take _ _ w₂) fun t w₃ _ => ?_
    exact .before ((keeps_take _ _).spares w₃) fun _ w' => ⟨_, w', rfl⟩

theorem spares_executeLine (o : CompileOptions) (world : World) (line : List Char) (w : Workspace) :
    (executeLine o world line).Spares w := by
  refine .after (keeps_take _ _ w) fun command w₁ _ => ?_
  cases command with
  | some command => exact spares_execute o world command w₁
  | none => exact (Work.Keeps.pure none).spares w₁

end Command

/-- Assigning, removing and every command of a script leave the variables as they were if they fail,
and have noted no change. -/
theorem Workspace.spared_of_error (o : CompileOptions) (world : World) (w : Workspace) :
    (∀ (p : Path) values e, (p.set world values).result w = .error e →
      w.Spared ((p.set world values).after w)) ∧
    (∀ (p : Path) e, (p.remove world).result w = .error e → w.Spared ((p.remove world).after w)) ∧
    ∀ (command : Command) e w', (command.execute o world).run.run w = (.error e, w') →
      w.Spared w' := by
  refine ⟨fun p values e failed => ?_, fun p e failed => ?_, fun command => ?_⟩
  · exact p.spares_set world values w e _ (Prod.ext failed rfl)
  · exact p.spares_remove world w e _ (Prod.ext failed rfl)
  · exact command.spares_execute o world w

/-- A list does not grow for a value that its element type refuses. -/
theorem Workspace.spared_of_error_past_end :
    let id : VariableId := ⟨"global", "a"⟩
    let w : Workspace := .of (Store.empty.put id
      ⟨.list (some .int), some (.list (some .int) [some (.integer .int 1)])⟩)
    let p : Path := ⟨id, [.index [.constant (some (.integer .int 3))]]⟩
    let origin : Evaluated := .single (some (.position .origin))
    let command : Command := .set "a[3]" "\"x\""
    (∃ e, (p.set .detached origin).result w = .error e) ∧
      w.Spared ((p.set .detached origin).after w) ∧
      (∃ e, (p.remove .detached).result w = .error e) ∧ w.Spared ((p.remove .detached).after w) ∧
      ∃ e w', (command.execute {} .detached).run.run w = (.error e, w') ∧ w.Spared w' := by
  intro id w p origin command
  obtain ⟨assigned, removed, executed⟩ := Workspace.spared_of_error {} .detached w
  have assigning : ∃ e, (p.set .detached origin).result w = .error e := ⟨_, rfl⟩
  have removing : ∃ e, (p.remove .detached).result w = .error e := ⟨_, rfl⟩
  have executing : ∃ e w', (command.execute {} .detached).run.run w = (.error e, w') := ⟨_, _, rfl⟩
  obtain ⟨e, failed⟩ := executing
  refine ⟨assigning, ?_, removing, ?_, e, ?_⟩
  · exact assigning.elim (assigned p origin)
  · exact removing.elim (removed p)
  · exact failed.imp fun w' ran => ⟨ran, executed command e w' ran⟩

/-- A script that fails leaves the variables as the lines before the failing one left them. -/
theorem Script.slots_of_failure {o : CompileOptions} {world : World} {s : Store} {number : Nat}
    {lines : List (List Char)} {failure : LineError}
    (failed : (runFrom o world s number lines).failure = some failure) : ∃ done line rest,
      lines = done ++ line :: rest ∧ failure.line = number + done.length ∧
      (runFrom o world s number done).failure = none ∧
      (runFrom o world s number lines).store.slots = (runFrom o world s number done).store.slots := by
  induction lines generalizing s number with
  | nil => cases failed
  | cons line rest ih =>
    rcases ran : (Command.executeLine o (world.within number) line).run.run (.of s) with ⟨r, w⟩
    cases r with
    | error e =>
      have spared := Command.spares_executeLine o (world.within number) line (.of s) e w ran
      simp only [runFrom, ran] at failed ⊢
      cases failed
      exact ⟨[], line, rest, rfl, rfl, rfl, spared.slots⟩
    | ok printed =>
      simp only [runFrom, ran] at failed
      obtain ⟨done, failing, others, split, counted, well, slots⟩ := ih failed
      refine ⟨line :: done, failing, others, ?_, ?_, ?_, ?_⟩
      · rw [split, List.cons_append]
      · rw [counted, List.length_cons]
        omega
      · simp only [runFrom, ran]
        exact well
      · simp only [runFrom, ran]
        exact slots

end Immediate
