import Immediate.Proofs.Codec.Writing
import Immediate.Proofs.Editing.Typing
/-! What is ever stored. Whatever is done to a store, in whatever order and with whatever failures,
every variable keeps holding nothing or a value that fits its declared type. -/
namespace Immediate

open Edit Outcome

/-- Something that is done to a store. Each may consult a host of its own. -/
inductive Operation where
  | declare (id : VariableId) (ty : Ty)
  | set (world : World) (p : Path) (values : Evaluated)
  | remove (world : World) (p : Path)
  | read (world : World) (p : Path)
  | evaluate (world : World) (e : Expression)
  | compare (world : World) (left : Expression) (op : CompareOp) (right : Expression)

namespace Operation

/-- The work of an operation, of which only the effect is kept. -/
def work : Operation → Edit Unit
  | .declare id ty => do setStore (← (← store).declare id ty)
  | .set world p values => do let _ ← p.set world values
  | .remove world p => do let _ ← p.remove world
  | .read world p => do let _ ← p.read world
  | .evaluate world e => do let _ ← Edit.evaluate world e
  | .compare world left op right => do let _ ← Edit.compare world left op right

end Operation

namespace Store

/-- The store that an operation leaves, whether it succeeds or fails. -/
def after (s : Store) (op : Operation) : Store := (op.work.after (.of s)).store

/-- The store that operations leave one after another. -/
def afterAll (s : Store) (ops : List Operation) : Store := ops.foldl after s

/-- Every variable holds a typed value with a property. -/
def Each (P : TypedValue → Prop) (s : Store) : Prop := ∀ id t, s.find? id = some t → P t

/-- Every variable holds what fits its type. -/
def Fits (s : Store) : Prop := ∀ id t, s.find? id = some t → t.Fits

namespace Each

variable {P : TypedValue → Prop} {s s' : Store} {base : VariableId}

theorem untouched (each : s.Each P) (same : Path.Untouched s s') : s'.Each P := by
  intro id t held
  rw [same] at held
  exact each id t held

/-- Changes of one variable leave the others alone, so only what is left of it matters. -/
theorem left {t : TypedValue} {done : List Alteration} (each : s.Each P)
    (left : Path.Left base t s s' done) (changed : P (t.altered done)) : s'.Each P := by
  intro id u held
  by_cases named : id = base
  · subst named
    cases left.changed.symm.trans held
    exact changed
  · rw [left.others id named] at held
    exact each id u held

theorem gone (each : s.Each P) (gone : s'.find? base = none)
    (others : ∀ other ≠ base, s'.find? other = s.find? other) : s'.Each P := by
  intro id u held
  by_cases named : id = base
  · subst named
    cases gone.symm.trans held
  · rw [others id named] at held
    exact each id u held

theorem declare {ty : Ty} (each : s.Each P) (start : P (.default ty))
    (declared : s.declare base ty = .ok s') : s'.Each P := by
  obtain ⟨-, rfl⟩ := declare_eq_ok declared
  intro other t held
  by_cases named : other = base
  · subst named
    rw [find?_put_self] at held
    cases held
    exact start
  · rw [find?_put_of_ne s _ named] at held
    exact each other t held

end Each

end Store

namespace Path

theorem done_subset {isStream : Bool} {t : TypedValue} {changes done : List Alteration}
    {r : Except EvalError Nat} (ended : Ended isStream t changes r done) : done ⊆ changes := by
  cases ended with
  | well => exact List.Subset.refl _
  | failed single split failure =>
    rw [split]
    exact List.subset_append_left ..

section Each
variable {P : TypedValue → Prop} {world : World} {p : Path} {values : Evaluated} {w : Workspace}

/-- What the assignments to the resolved locations preserve in the variable holds everywhere in the
store, whether or not all of them succeed. -/
theorem each_of_set (each : w.store.Each P)
    (kept : ∀ targets assigned t done, (p.resolve world true).result w = .ok targets →
      assignments targets values = .ok assigned → w.store.find? p.base = some t → P t →
      done ⊆ (assigning assigned).map (·.2) → P (t.altered done)) :
    ((p.set world values).after w).store.Each P := by
  rcases set_cases world p values w with ⟨-, same⟩ | ⟨targets, assigned, t, resolved, paired, held, done,
    left, ended⟩
  · exact each.untouched same
  · exact each.left left
      (kept targets assigned t done resolved paired held (each _ _ held) (done_subset ended))

theorem each_of_remove (each : w.store.Each P)
    (kept : ∀ targets t, (p.resolve world false).result w = .ok targets →
      w.store.find? p.base = some t → ∀ location ∈ targets.locations, ∀ u u' changed, P u →
      u.removeAt location = .ok (u', changed) → P u') :
    ((p.remove world).after w).store.Each P := by
  rcases remove_cases world p w with ⟨-, same⟩ | ⟨-, -, gone, others⟩ | ⟨targets, t, -, resolved, held,
    done, left, ended⟩
  · exact each.untouched same
  · exact each.gone gone others
  · refine each.left left (removing_induction (done_subset ended) (each _ _ held) ?_)
    intro location member
    exact kept targets t resolved held location (List.mem_reverse.mp member)

end Each

/-- Assignments to the locations of a path leave a typed value that fits its type. -/
theorem fits_of_assigning {world : World} {p : Path} {w : Workspace} {targets : Targets}
    {values : Evaluated} {t : TypedValue} {assigned : List (Location × Slot)} {done : List Alteration}
    (resolved : (p.resolve world true).result w = .ok targets)
    (held : w.store.find? p.base = some t) (fits : t.Fits)
    (paired : assignments targets values = .ok assigned)
    (among : done ⊆ (assigning assigned).map (·.2)) : (t.altered done).Fits := by
  have located (pair : Location × Slot) (member : pair ∈ assigned) :=
    mem_of_resolve held resolved pair.1 (mem_of_assignments paired pair member).1
  by_cases whole : p.accessors = []
  · refine assigning_induction among fits ?_
    rintro ⟨location, new⟩ member u u' changed - ran
    have long := (located _ member).1
    rw [whole] at long
    cases List.eq_nil_of_length_eq_zero long
    obtain ⟨u'', assign, equal⟩ := bind_eq_ok.mp ran
    cases pure_eq_ok.mp equal
    exact (TypedValue.Fits.assign assign).2
  · have standing : TypedValue.Standing t (t.altered done) (p.accessors.length - 1) := by
      have start : TypedValue.Standing t t (p.accessors.length - 1) := ⟨rfl, fits, .refl _ _⟩
      refine assigning_induction
        (motive := fun u => TypedValue.Standing t u (p.accessors.length - 1)) among start ?_
      rintro ⟨location, new⟩ member u u' changed standing ran
      obtain ⟨long, selected⟩ := located _ member
      obtain ⟨pair, selected⟩ := selected whole
      rw [← long] at standing ⊢
      exact standing.assignAt fits selected ran
    exact standing.fits

theorem fits_of_set {world : World} {p : Path} {values : Evaluated} {w : Workspace}
    (fits : w.store.Fits) : ((p.set world values).after w).store.Fits := by
  refine each_of_set fits fun targets assigned t done resolved paired held fitting among => ?_
  exact fits_of_assigning resolved held fitting paired among

theorem fits_of_remove {world : World} {p : Path} {w : Workspace} (fits : w.store.Fits) :
    ((p.remove world).after w).store.Fits :=
  each_of_remove fits fun _ _ _ _ _ _ _ _ _ fitting ran => (fitting.removeAt ran).2

end Path

theorem Edit.after_discard {α : Type} (x : Edit α) (w : Workspace) :
    (do let _ ← x : Edit Unit).after w = x.after w := by
  rw [after_bind]
  cases x.result w <;> rfl

/-- An operation keeps what its assignment or removal keeps. What is declared must begin with it. -/
theorem Store.Each.after {P : TypedValue → Prop} {s : Store} (each : s.Each P)
    (start : ∀ ty, P (.default ty)) (op : Operation)
    (set : ∀ world p values, op = .set world p values →
      ((p.set world values).after (.of s)).store.Each P)
    (remove : ∀ world p, op = .remove world p → ((p.remove world).after (.of s)).store.Each P) :
    (s.after op).Each P := by
  have looking {α : Type} {x : Edit α} (looks : Looks x)
      (same : op.work = do let _ ← x) : (s.after op).Each P := by
    rw [Store.after, same, after_discard, looks.store]
    exact each
  cases op with
  | declare id ty =>
    rw [Store.after, Operation.work, after_bind, result_store, after_store]
    dsimp only
    rw [after_bind, result_lift, after_lift]
    cases declared : s.declare id ty with
    | error e =>
      simp only [Workspace.of, declared]
      exact each
    | ok s' =>
      simp only [Workspace.of, declared]
      exact each.declare (start ty) declared
  | set world p values =>
    rw [Store.after, Operation.work, after_discard]
    exact set world p values rfl
  | remove world p =>
    rw [Store.after, Operation.work, after_discard]
    exact remove world p rfl
  | read world p => exact looking (looks_run world p.code) rfl
  | evaluate world e => exact looking (looks_evaluate world e) rfl
  | compare world left op right => exact looking (looks_compare world left op right) rfl

/-- One operation keeps all variables fitting. -/
theorem Store.Fits.after {s : Store} (fits : s.Fits) (op : Operation) : (s.after op).Fits :=
  Each.after fits Ty.slotFits_default op (fun _ _ _ _ => Path.fits_of_set fits)
    (fun _ _ _ => Path.fits_of_remove fits)

theorem Store.Fits.afterAll {s : Store} (fits : s.Fits) (ops : List Operation) :
    (s.afterAll ops).Fits := by
  induction ops generalizing s with
  | nil => exact fits
  | cons op rest ih => exact ih (fits.after op)

/-- Whatever is done to an empty store, a variable holds nothing or what fits its type. If the type is
complete, the variable can be written, unless a text or a container in it is too long. -/
theorem Store.fits_of_reachable {ops : List Operation} {id : VariableId} {t : TypedValue}
    (held : (Store.empty.afterAll ops).find? id = some t) :
    (∀ v, t.slot = some v → Value.Fits t.ty v) ∧
      (t.ty.isComplete = true → (∀ v, t.slot = some v → v.LengthsFit) →
        ∃ bytes, Codec.encode t = .ok bytes) := by
  have start : Store.empty.Fits := nofun
  have fits := start.afterAll ops id t held
  exact ⟨fits t.ty rfl, fun complete lengths => Codec.exists_encode fits complete lengths⟩

/-- An assignment past the end of a list of integers casts the new element and fills the gap. -/
theorem Store.fits_of_reachable_extended :
    let id : VariableId := ⟨"a", "b"⟩
    let t : TypedValue := ⟨.list (some .int),
      some (.list (some .int) [none, some (.integer .int 7)])⟩
    (Store.empty.afterAll [.declare id (.list (some .int)),
      .set .detached ⟨id, [.index [.constant (some (.integer .byte 1))]]⟩
        (.single (some (.integer .byte 7)))]).find? id = some t ∧
      (∀ v, t.slot = some v → Value.Fits t.ty v) ∧ ∃ bytes, Codec.encode t = .ok bytes := by
  intro id t
  have lengths (v : Value) (held : t.slot = some v) : v.LengthsFit := by
    cases held
    refine .list (by decide) fun slot member v held => ?_
    rcases List.mem_cons.mp member with rfl | member
    · cases held
    · cases List.mem_singleton.mp member
      cases held
      exact .scalar rfl nofun
  have held : (Store.empty.afterAll [.declare id (.list (some .int)),
      .set .detached ⟨id, [.index [.constant (some (.integer .byte 1))]]⟩
        (.single (some (.integer .byte 7)))]).find? id = some t := rfl
  obtain ⟨fits, written⟩ := Store.fits_of_reachable held
  exact ⟨held, fits, written rfl lengths⟩

end Immediate
