import Immediate.Proofs.Editing.Effects
import Immediate.Proofs.Editing.Naming
import Immediate.Proofs.Editing.Stored
/-! Assigning to a path. What a successful assignment makes of a store follows from the resolved
locations and the values alone: the variable has the effect of the assignments one after another, and
no other variable changes. -/
namespace Immediate

open Edit Outcome Value

/-- The whole effect of assignments on a typed value. Every location to which an assignment succeeded
reads back the last value assigned to it, cast to the type declared there; what lies beside all of
them reads as before; and nothing else reads now but what is at them or below, or is an empty slot that
fills a sequence up to one. -/
structure TypedValue.Effect (t t' : TypedValue) (assigned : List (Location × Slot)) : Prop where
  ty : t'.ty = t.ty
  reads_back : ∀ pair ∈ t.succeeded assigned, ∃ new known x slot,
    pair.1.lastTo (t.succeeded assigned) = some new ∧ t.declaredAt? pair.1 = .ok known ∧
      castSlot known new = .ok x ∧ at? pair.1 t'.slot = .ok slot ∧ sameSlot slot x = true
  beside : ∀ (other : Location) slot, other.Keyed → at? other t.slot = .ok slot →
    (∀ pair ∈ t.succeeded assigned, pair.1.covers other = false ∧ other.covers pair.1 = false) →
      at? other t'.slot = .ok slot
  fresh : ∀ (other : Location) slot, other.Keyed → at? other t'.slot = .ok slot →
    (∀ old, at? other t.slot ≠ .ok old) →
      (∃ pair ∈ t.succeeded assigned, pair.1.covers other = true) ∨
        slot = none ∧ ∃ pair ∈ t.succeeded assigned, pair.1.Pads other

theorem TypedValue.effect_of_proper {n : Nat} {t : TypedValue} {assigned : List (Location × Slot)}
    (proper : Proper n assigned) (keyed : SlotKeyed t.slot) :
    t.Effect (t.altered ((Path.assigning assigned).map (·.2))) assigned := by
  have runs := t.runs_succeeded assigned
  have properDone := proper.succeeded t
  refine ⟨runs.ty, fun pair member => ?_, fun other slot others read beside => ?_,
    fun other slot others read unread => ?_⟩
  · have own := properDone.locations pair member
    cases last : pair.1.lastTo (t.succeeded assigned) with
    | none =>
      have missed := Location.lastTo_eq_none.mp last pair member
      simp [Location.same, Location.covers_refl own] at missed
    | some new =>
      obtain ⟨known, x, slot, found⟩ :=
        runs.reads_back properDone keyed own (properDone.long pair member) last
      exact ⟨new, known, x, slot, rfl, found⟩
  · exact runs.apart properDone keyed others beside read
  · rcases runs.fresh properDone keyed others read with ⟨old, before⟩ | covered
    · exact absurd before (unread old)
    · exact covered

namespace Path

/-- A successful assignment leaves every other variable alone, and has on its own variable the effect
of the assignments to the resolved locations, one after another. -/
theorem effect_of_set {world : World} {p : Path} {values : Evaluated} {w : Workspace} {n : Nat}
    (stored : w.store.Keyed) (constants : p.Keyed) (given : values.Keyed)
    (run : (p.set world values).result w = .ok n) : ∃ t t' targets,
      w.store.find? p.base = some t ∧ (p.resolve world true).result w = .ok targets ∧
      ((p.set world values).after w).store.find? p.base = some t' ∧
      (∀ other ≠ p.base,
        ((p.set world values).after w).store.find? other = w.store.find? other) ∧
      t.Effect t' (values.pairedWith targets.locations) := by
  rcases set_cases world p values w with ⟨⟨e, failed⟩, -⟩ |
    ⟨targets, assigned, t, resolved, paired, held, done, left, ended⟩
  · rw [run] at failed
    cases failed
  · have finished : done = (assigning assigned).map (·.2) := by
      rw [run] at ended
      cases ended
      rfl
    rw [finished] at left
    refine ⟨t, _, targets, held, resolved, left.changed, left.others, ?_⟩
    rw [← pairedWith_of_assignments paired]
    have locations := keyed_of_resolve stored constants resolved
    have located := mem_of_resolve held resolved
    have members := mem_of_assignments paired
    have proper : TypedValue.Proper p.accessors.length assigned := by
      constructor
      · intro pair member
        exact (located pair.1 (members pair member).1).1
      · intro pair member
        exact locations pair.1 (members pair member).1
      · intro pair member
        exact given pair.2 (members pair member).2
    exact TypedValue.effect_of_proper proper (stored _ t held)

/-- Two of three assignments succeed, both to one position past the end of a list. -/
theorem effect_of_set_partly :
    let id : VariableId := ⟨"a", "b"⟩
    let number (n : Nat) : Slot := some (.integer .int n)
    let origin : Slot := some (.position .origin)
    let t : TypedValue := ⟨.list (some .int), some (.list (some .int) [number 1])⟩
    let w : Workspace := .of (Store.empty.put id t)
    let p : Path := ⟨id, [.index [.constant (some (.list none [number 2, number 5, number 2])),
      .allContents]]⟩
    let values : Evaluated := .many [number 7, origin, number 9]
    (p.set .detached values).result w = .ok 2 ∧ ∃ t',
      ((p.set .detached values).after w).store.find? id = some t' ∧
      t.Effect t' [([.index 2], number 7), ([.index 5], origin), ([.index 2], number 9)] := by
  intro id number origin t w p values
  have run : (p.set .detached values).result w = .ok 2 := rfl
  have stored : w.store.Keyed := by
    intro other u held
    by_cases same : other = id
    · rw [same] at held
      cases held
      decide
    · have found : (Store.empty.put id t).find? other = some u := held
      rw [Store.find?_put_of_ne _ _ same] at found
      cases found
  have constants : p.Keyed := by
    intro a member code inside slot among
    cases List.mem_singleton.mp member
    cases List.mem_singleton.mp inside
    rcases List.mem_cons.mp among with same | other
    · cases same
      decide
    · simp at other
  have given : values.Keyed := by
    change ∀ slot ∈ [number 7, origin, number 9], SlotKeyed slot
    decide
  obtain ⟨u, t', targets, held, resolved, changed, -, effect⟩ :=
    effect_of_set stored constants given run
  cases held
  cases resolved
  exact ⟨run, t', changed, effect⟩

end Path
end Immediate
