import Immediate.Proofs.Editing.Stored
/-! What marks tell. Whatever is done to a store, with whatever failures, a mark stands on a variable
that is there, and a variable without one is as it was when the marks were last taken. So a host that
writes back the marked variables alone misses no change. -/
namespace Immediate

open Edit Outcome

/-- What the holder of a store may do to it. -/
inductive Access where
  /-- Takes a variable to change it, in whatever way. -/
  | fetch (id : VariableId) (change : TypedValue → TypedValue)
  | peek (id : VariableId)
  | put (id : VariableId) (t : TypedValue)
  | drop (id : VariableId)
  | takeDirty
  /-- Declares a variable, or works on the store with paths and expressions. -/
  | operate (op : Operation)

namespace Store

/-- Changes a variable that has been taken. Its mark was made when it was taken. -/
def overwrite (s : Store) (id : VariableId) (t : TypedValue) : Store :=
  { s with slots := (id, t) :: s.slots.filter (·.1 ≠ id) }

/-- The store that an access leaves, whether it succeeds or fails. -/
def accessed (s : Store) : Access → Store
  | .fetch id change =>
    match s.fetch id with
    | .ok (t, marked) => marked.overwrite id (change t)
    | .error _ => s
  | .peek _ => s
  | .put id t => s.put id t
  | .drop id =>
    match s.remove id with
    | .ok (_, left) => left
    | .error _ => s
  | .takeDirty => s.takeDirty.2
  | .operate op => s.after op

/-- The store that accesses leave one after another. -/
def accessedAll (s : Store) (accesses : List Access) : Store := accesses.foldl accessed s

/-- The store when the last of the accesses that take its marks had taken them; without one, the store
that is given for it. -/
def lastTaken (base s : Store) : List Access → Store
  | [] => base
  | .takeDirty :: rest => lastTaken s.takeDirty.2 s.takeDirty.2 rest
  | access :: rest => lastTaken base (s.accessed access) rest

/-- Marks stand on variables that are there. -/
def MarksStored (s : Store) : Prop := ∀ id ∈ s.dirty, ∃ t, s.find? id = some t

/-- What is stored without a mark is in an earlier store as well, and the same. -/
def CleanSince (s base : Store) : Prop :=
  ∀ id t, s.find? id = some t → id ∉ s.dirty → base.find? id = some t

/-- What may happen to a store between two takings of its marks: no mark comes to stand on nothing,
and a variable that has none in the end had none before and was the same. -/
structure Marks (before after : Store) : Prop where
  stored : before.MarksStored → after.MarksStored
  clean : ∀ id t, after.find? id = some t → id ∉ after.dirty →
    before.find? id = some t ∧ id ∉ before.dirty

/-! ### Single changes -/

theorem mem_dirty_mark {s : Store} {id other : VariableId} :
    other ∈ (s.mark id).dirty ↔ other = id ∨ other ∈ s.dirty := by
  unfold mark
  split
  · rename_i marked
    refine ⟨.inr, ?_⟩
    rintro (rfl | member)
    · exact List.contains_iff_mem.mp marked
    · exact member
  · exact List.mem_cons

namespace Marks

theorem refl (s : Store) : s.Marks s := ⟨id, fun _ _ held clean => ⟨held, clean⟩⟩

theorem trans {s₁ s₂ s₃ : Store} (first : s₁.Marks s₂) (second : s₂.Marks s₃) : s₁.Marks s₃ := by
  refine ⟨fun stored => second.stored (first.stored stored), fun id t held clean => ?_⟩
  obtain ⟨middle, cleanMiddle⟩ := second.clean id t held clean
  exact first.clean id t middle cleanMiddle

theorem mark {s : Store} {id : VariableId} {t : TypedValue} (held : s.find? id = some t) :
    s.Marks (s.mark id) := by
  refine ⟨fun stored other member => ?_, fun other u found clean => ⟨found, fun marked => ?_⟩⟩
  · rcases mem_dirty_mark.mp member with rfl | earlier
    · exact ⟨t, held⟩
    · exact stored other earlier
  · exact clean (mem_dirty_mark.mpr (.inr marked))

theorem put (s : Store) (id : VariableId) (t : TypedValue) : s.Marks (s.put id t) := by
  refine ⟨fun stored other member => ?_, fun other u found clean => ?_⟩
  · by_cases named : other = id
    · exact ⟨t, by rw [named, find?_put_self]⟩
    · rw [find?_put_of_ne s t named]
      exact stored other ((mem_dirty_mark.mp member).resolve_left named)
  · have marked : id ∈ (s.put id t).dirty := mem_dirty_mark.mpr (.inl rfl)
    have apart : other ≠ id := fun named => clean (named ▸ marked)
    rw [find?_put_of_ne s t apart] at found
    exact ⟨found, fun earlier => clean (mem_dirty_mark.mpr (.inr earlier))⟩

theorem remove {s s' : Store} {id : VariableId} {t : TypedValue}
    (removed : s.remove id = .ok (t, s')) : s.Marks s' := by
  obtain ⟨gone, others⟩ := find?_of_remove removed
  obtain ⟨u, -, equal⟩ := bind_eq_ok.mp removed
  cases pure_eq_ok.mp equal
  have unmarked {other : VariableId} : other ∈ s.dirty.filter (· ≠ id) ↔
      other ∈ s.dirty ∧ other ≠ id := by simp
  refine ⟨fun stored other member => ?_, fun other u found clean => ?_⟩
  · obtain ⟨marked, apart⟩ := unmarked.mp member
    rw [others other apart]
    exact stored other marked
  · have apart : other ≠ id := by
      rintro rfl
      cases gone.symm.trans found
    rw [others other apart] at found
    exact ⟨found, fun marked => clean (unmarked.mpr ⟨marked, apart⟩)⟩

theorem declare {s s' : Store} {id : VariableId} {ty : Ty} (declared : s.declare id ty = .ok s') :
    s.Marks s' := by
  obtain ⟨-, rfl⟩ := declare_eq_ok declared
  exact .put ..

end Marks

end Store

/-! ### Work on a store -/

namespace Edit

variable {α β : Type}

/-- Work that changes no variable without marking it. -/
def Marks (x : Edit α) : Prop := ∀ w : Workspace, w.store.Marks (x.after w).store

theorem Looks.marks {x : Edit α} (looks : Looks x) : x.Marks := by
  intro w
  rw [looks.store]
  exact Store.Marks.refl _

namespace Marks

theorem bind {x : Edit α} {f : α → Edit β} (first : x.Marks) (others : ∀ a, (f a).Marks) :
    (x >>= f).Marks := by
  intro w
  rw [after_bind]
  cases x.result w with
  | error e => exact first w
  | ok a => exact (first w).trans (others a _)

/-- Work that begins with what a function makes of the store. -/
theorem ofStore {f : Store → Except EvalError α} {next : α → Edit β}
    (each : ∀ (w : Workspace) (a : α), f w.store = .ok a → w.store.Marks ((next a).after w).store) :
    (do next (← f (← store)) : Edit β).Marks := by
  intro w
  rw [after_bind, result_store, after_store]
  dsimp only
  rw [after_bind, result_lift, after_lift]
  cases given : f w.store with
  | error e => exact Store.Marks.refl _
  | ok a => exact each w a given

end Marks
end Edit

namespace Path

theorem marks_changeEach (base : VariableId) (isStream : Bool)
    (changes : List (Location × Alteration)) : (changeEach base isStream changes).Marks := by
  induction changes with
  | nil => exact (Looks.pure 0).marks
  | cons change rest ih =>
    obtain ⟨location, change⟩ := change
    intro w
    cases held : w.store.find? base with
    | none =>
      have kept : (changeEach base isStream ((location, change) :: rest)).after w = w := by
        simp only [changeEach, after_bind, result_store, after_store, result_lift, after_lift,
          Store.peek, held]
      rw [kept]
      exact Store.Marks.refl _
    | some t =>
      rw [after_changeEach_cons held]
      cases change t with
      | ok changed =>
        obtain ⟨u, flag⟩ := changed
        cases flag with
        | true => exact (Store.Marks.put ..).trans (ih (noted w base u location))
        | false => exact (Store.Marks.put ..).trans (ih { w with store := w.store.put base u })
      | error e =>
        cases isStream with
        | true => exact ih { w with reports := w.reports ++ [e] }
        | false => exact Store.Marks.refl _

/-- A variable is marked before it is changed at any location. -/
theorem marks_changing (base : VariableId) (isStream : Bool)
    (changes : List (Location × Alteration)) : (changing base isStream changes).Marks := by
  refine Marks.ofStore (f := fun s => s.fetch base) fun w fetched taken => ?_
  obtain ⟨t, peeked, equal⟩ := bind_eq_ok.mp taken
  cases pure_eq_ok.mp equal
  have marked := Store.Marks.mark (Store.peek_eq_ok.mp peeked)
  exact marked.trans (marks_changeEach base isStream changes { w with store := w.store.mark base })

theorem marks_set (world : World) (p : Path) (values : Evaluated) : (p.set world values).Marks :=
  (looks_resolve world true p).marks.bind fun targets =>
    (Looks.lift (assignments targets values)).marks.bind fun assigned =>
      marks_changing p.base targets.isStream (assigning assigned)

theorem marks_remove (world : World) (p : Path) : (p.remove world).Marks := by
  cases last : p.accessors.getLast? with
  | none =>
    simp only [remove, last]
    refine Marks.ofStore (f := fun s => s.remove p.base) fun w removed taken => ?_
    exact Store.Marks.remove taken
  | some accessor =>
    cases accessor with
    | entryKey | entryValue =>
      simp only [remove, last]
      exact (Looks.throw _).marks
    | _ =>
      simp only [remove, last]
      exact (looks_resolve world false p).marks.bind fun targets =>
        marks_changing p.base targets.isStream (removing targets.locations.reverse)

end Path

theorem Operation.marks_work (op : Operation) : op.work.Marks := by
  have discard {α : Type} {x : Edit α} (marks : x.Marks) : (do let _ ← x : Edit Unit).Marks :=
    marks.bind fun _ => (Looks.pure ()).marks
  cases op with
  | declare id ty =>
    exact Marks.ofStore (f := fun s => s.declare id ty) fun w s declared =>
      Store.Marks.declare declared
  | set world p values => exact discard (p.marks_set world values)
  | remove world p => exact discard (p.marks_remove world)
  | read world p => exact discard (looks_run world p.code).marks
  | evaluate world e => exact discard (looks_evaluate world e).marks
  | compare world left op right => exact discard (looks_compare world left op right).marks

/-! ### Histories -/

namespace Store

theorem marks_accessed (s : Store) {access : Access} (keeps : access ≠ .takeDirty) :
    s.Marks (s.accessed access) := by
  cases access with
  | fetch id change =>
    simp only [accessed]
    split
    · rename_i t marked fetched
      obtain ⟨u, -, equal⟩ := bind_eq_ok.mp fetched
      cases pure_eq_ok.mp equal
      exact .put s id (change t)
    · exact .refl s
  | peek id => exact .refl s
  | put id t => exact .put s id t
  | drop id =>
    simp only [accessed]
    split
    · rename_i t left removed
      exact .remove removed
    · exact .refl s
  | takeDirty => exact absurd rfl keeps
  | operate op => exact op.marks_work (.of s)

theorem marksStored_takeDirty (s : Store) : s.takeDirty.2.MarksStored := nofun

theorem MarksStored.accessed {s : Store} (stored : s.MarksStored) (access : Access) :
    (s.accessed access).MarksStored := by
  by_cases takes : access = .takeDirty
  · subst takes
    exact marksStored_takeDirty s
  · exact (s.marks_accessed takes).stored stored

theorem MarksStored.accessedAll {s : Store} (stored : s.MarksStored) (accesses : List Access) :
    (s.accessedAll accesses).MarksStored := by
  induction accesses generalizing s with
  | nil => exact stored
  | cons access rest ih => exact ih (stored.accessed access)

theorem CleanSince.refl (s : Store) : s.CleanSince s := fun _ _ held _ => held

theorem CleanSince.onward {s s' base : Store} (clean : s.CleanSince base) (marks : s.Marks s') :
    s'.CleanSince base := by
  intro id t held unmarked
  obtain ⟨earlier, unmarkedEarlier⟩ := marks.clean id t held unmarked
  exact clean id t earlier unmarkedEarlier

theorem cleanSince_lastTaken {s base : Store} (clean : s.CleanSince base)
    (accesses : List Access) : (s.accessedAll accesses).CleanSince (lastTaken base s accesses) := by
  fun_induction lastTaken base s accesses with
  | case1 => exact clean
  | case2 base s rest ih => exact ih (.refl _)
  | case3 base s access rest keeps ih => exact ih (clean.onward (s.marks_accessed keeps))

/-- Whatever is done to a store, only stored variables are marked. A stored variable that is not marked
was stored, with the same type and value, when the marks were last taken, or at first if they never
were. -/
theorem kept_of_unmarked {s : Store} (stored : s.MarksStored) (accesses : List Access) :
    (∀ id, (s.accessedAll accesses).isDirty id = true →
      ∃ t, (s.accessedAll accesses).find? id = some t) ∧
    ∀ id t, (s.accessedAll accesses).find? id = some t →
      (s.accessedAll accesses).isDirty id = false → (lastTaken s s accesses).find? id = some t := by
  refine ⟨fun id marked => ?_, fun id t held unmarked => ?_⟩
  · exact stored.accessedAll accesses id (List.contains_iff_mem.mp marked)
  · refine cleanSince_lastTaken (.refl s) accesses id t held fun member => ?_
    cases unmarked.symm.trans (List.contains_iff_mem.mpr member)

/-- An assignment that fails marks its variable, as does one through the slot that was taken; a
variable that is removed loses its mark, and one that is only looked at gets none. -/
theorem kept_of_unmarked_mixed :
    let named (path : String) : VariableId := ⟨"a", path⟩
    let accesses : List Access := [
      .operate (.declare (named "b") .int), .put (named "c") (.default .string),
      .operate (.declare (named "d") (.list (some .int))), .takeDirty,
      .operate (.set .detached ⟨named "b", []⟩ (.single (some (.position .origin)))),
      .fetch (named "c") fun _ => .empty .position,
      .operate (.declare (named "e") .int), .drop (named "e"), .peek (named "d")]
    let left := Store.empty.accessedAll accesses
    left.dirty = [named "c", named "b"] ∧ (∀ id ∈ left.dirty, ∃ t, left.find? id = some t) ∧
      (left.find? (named "d")).isSome = true ∧
      left.find? (named "d") = (lastTaken .empty .empty accesses).find? (named "d") := by
  intro named accesses left
  have marks : left.dirty = [named "c", named "b"] := by decide +kernel
  have unmarked : left.isDirty (named "d") = false := by decide +kernel
  have stored : (left.find? (named "d")).isSome = true := by decide +kernel
  have start : Store.empty.MarksStored := nofun
  obtain ⟨there, kept⟩ := kept_of_unmarked start accesses
  refine ⟨marks, fun id member => there id (List.contains_iff_mem.mpr member), stored, ?_⟩
  obtain ⟨t, held⟩ := Option.isSome_iff_exists.mp stored
  rw [held, kept (named "d") t held unmarked]

end Store
end Immediate
