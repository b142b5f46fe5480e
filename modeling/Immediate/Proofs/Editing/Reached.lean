import Immediate.Proofs.Editing.Effects
import Immediate.Proofs.Editing.Naming
import Immediate.Proofs.Editing.Stored
/-! Keys stay apart. Whatever is done to a store with values that have it so, no map in a variable ever
holds one key twice, and a key names at most one slot wherever a path leads. -/
namespace Immediate

open Edit Outcome Value

namespace Value

/-- What can be read can be written. -/
theorem writable_of_at? {location : Location} {root slot : Slot}
    (there : at? location root = .ok slot) : Writable location root := by
  induction location generalizing root with
  | nil => exact .whole
  | cons step rest ih =>
    rw [at?_cons] at there
    obtain ⟨child, reached, below⟩ := bind_eq_ok.mp there
    exact .onward reached (ih below)

theorem keyed_removeChild {step : Step} {parent parent' : Slot} {changed : Bool}
    (keyed : SlotKeyed parent) (run : removeChild step parent = .ok (parent', changed)) :
    SlotKeyed parent' := by
  have removed {items : List Slot} (i : Nat) (contents : ∀ slot ∈ items, SlotKeyed slot) :
      ∀ slot ∈ (removeItem items i).1, SlotKeyed slot := by
    intro slot member
    rcases mem_removeItem member with old | rfl
    · exact contents slot old
    · exact slotKeyed_none
  cases parent with
  | none => cases run
  | some v =>
    have whole := keyed v rfl
    cases v with
    | list element items =>
      cases step with
      | index i =>
        cases run
        exact slotKeyed_some (keyed_list_iff.mpr (removed i (keyed_list_iff.mp whole)))
      | _ => cases run
    | iterator element items =>
      cases step with
      | index i =>
        cases run
        exact slotKeyed_some (keyed_iterator_iff.mpr (removed i (keyed_iterator_iff.mp whole)))
      | _ => cases run
    | map keyTy valueTy pairs =>
      cases step with
      | mapKey key =>
        cases run
        exact slotKeyed_some (keyed_map_iff.mpr ((keyed_map_iff.mp whole).erase key))
      | _ => cases run
    | _ => cases step <;> cases run

end Value

namespace TypedValue

theorem keyed_removeAt {t t' : TypedValue} {location : Location} {changed : Bool}
    (keyed : SlotKeyed t.slot) (own : location.Keyed)
    (run : t.removeAt location = .ok (t', changed)) : SlotKeyed t'.slot := by
  rcases List.eq_nil_or_concat location with rfl | ⟨front, step, rfl⟩
  · cases run
    exact keyed
  · rw [List.concat_eq_append] at run own
    obtain ⟨parent, parent', there, removed, rfl⟩ := parent_of_removeAt run
    have ownFront := (Location.keyed_append.mp own).1
    have parentKeyed := keyed_removeChild (keyed_at? keyed there) removed
    exact keyed_putAt (writable_of_at? there) keyed ownFront parentKeyed

end TypedValue

namespace Path

variable {world : World} {p : Path} {w : Workspace}

theorem keyed_of_set {values : Evaluated} (stored : w.store.Keyed) (constants : p.Keyed)
    (given : values.Keyed) : ((p.set world values).after w).store.Keyed := by
  refine each_of_set (P := fun t => SlotKeyed t.slot) stored ?_
  intro targets assigned t done resolved paired _ keyed among
  have locations := keyed_of_resolve stored constants resolved
  refine assigning_induction (motive := fun u => SlotKeyed u.slot) among keyed ?_
  intro pair member u u' changed keyed ran
  obtain ⟨location, slot⟩ := mem_of_assignments paired pair member
  exact (TypedValue.assigned_of_assignAt ran).keyed keyed (locations pair.1 location)
    (given pair.2 slot)

theorem keyed_of_remove (stored : w.store.Keyed) (constants : p.Keyed) :
    ((p.remove world).after w).store.Keyed := by
  refine each_of_remove (P := fun t => SlotKeyed t.slot) stored ?_
  intro targets t resolved _ location member u u' changed keyed ran
  exact TypedValue.keyed_removeAt keyed (keyed_of_resolve stored constants resolved location member) ran

end Path

/-- The values that an operation brings along hold each key once. -/
def Operation.Keyed : Operation → Prop
  | .set _ p values => p.Keyed ∧ values.Keyed
  | .remove _ p => p.Keyed
  | _ => True

theorem Ty.keyed_default (ty : Ty) : SlotKeyed ty.default := by
  intro v held
  cases ty with
  | scalar s =>
    cases s with
    | entity => cases held
    | _ =>
      cases held
      exact keyed_of_scalar rfl
  | list | iterator =>
    cases held
    first
      | exact keyed_list_iff.mpr nofun
      | exact keyed_iterator_iff.mpr nofun
  | map =>
    cases held
    exact keyed_map_iff.mpr .nil
  | entry => cases held

namespace Store

theorem Keyed.after {s : Store} (stored : s.Keyed) {op : Operation} (own : op.Keyed) :
    (s.after op).Keyed := by
  refine Each.after (P := fun t => SlotKeyed t.slot) stored Ty.keyed_default op ?_ ?_
  · rintro world p values rfl
    exact Path.keyed_of_set stored own.1 own.2
  · rintro world p rfl
    exact Path.keyed_of_remove stored own

theorem Keyed.afterAll {s : Store} (stored : s.Keyed) {ops : List Operation}
    (own : ∀ op ∈ ops, op.Keyed) : (s.afterAll ops).Keyed := by
  induction ops generalizing s with
  | nil => exact stored
  | cons op rest ih =>
    obtain ⟨first, later⟩ := List.forall_mem_cons.mp own
    exact ih (stored.after first) later

/-- Stores that are reached from the empty one are among those that addressing and assigning are
about. -/
theorem keyed_of_reachable {ops : List Operation} (own : ∀ op ∈ ops, op.Keyed) :
    (empty.afterAll ops).Keyed := by
  have start : empty.Keyed := nofun
  exact start.afterAll own

end Store
end Immediate
