import Immediate.Proofs.Outcomes
import Immediate.Store
/-! The store as a finite map. Setting and removing a variable touch that variable alone. -/
namespace Immediate.Store

open Outcome

private theorem lookup_filter_ne (slots : List (VariableId × TypedValue)) {id other : VariableId}
    (apart : other ≠ id) : (slots.filter (·.1 ≠ id)).lookup other = slots.lookup other := by
  induction slots with
  | nil => rfl
  | cons slot rest ih =>
    obtain ⟨name, t⟩ := slot
    by_cases named : name = id
    · subst named
      rw [List.filter_cons_of_neg (by simp), ih, List.lookup_cons, beq_false_of_ne apart]
    · rw [List.filter_cons_of_pos (by simpa using named), List.lookup_cons, List.lookup_cons, ih]

private theorem lookup_filter_self (slots : List (VariableId × TypedValue)) (id : VariableId) :
    (slots.filter (·.1 ≠ id)).lookup id = none := by
  induction slots with
  | nil => rfl
  | cons slot rest ih =>
    obtain ⟨name, t⟩ := slot
    by_cases named : name = id
    · subst named
      rw [List.filter_cons_of_neg (by simp), ih]
    · rw [List.filter_cons_of_pos (by simpa using named), List.lookup_cons,
        beq_false_of_ne (Ne.symm named), ih]

theorem find?_put_self (s : Store) (id : VariableId) (t : TypedValue) :
    (s.put id t).find? id = some t := by
  simp only [put, find?, List.lookup_cons_self]

theorem find?_put_of_ne (s : Store) {id other : VariableId} (t : TypedValue) (apart : other ≠ id) :
    (s.put id t).find? other = s.find? other := by
  simp only [put, find?, List.lookup_cons, beq_false_of_ne apart]
  exact lookup_filter_ne s.slots apart

theorem peek_eq_ok {s : Store} {id : VariableId} {t : TypedValue} :
    s.peek id = .ok t ↔ s.find? id = some t := by
  unfold peek
  cases s.find? id with
  | none => exact ⟨nofun, nofun⟩
  | some u => exact ⟨fun held => congrArg some (Except.ok.inj held), fun held =>
      congrArg Except.ok (Option.some.inj held)⟩

theorem find?_of_remove {s s' : Store} {id : VariableId} {t : TypedValue}
    (removed : s.remove id = .ok (t, s')) :
    s'.find? id = none ∧ ∀ other ≠ id, s'.find? other = s.find? other := by
  obtain ⟨u, -, equal⟩ := bind_eq_ok.mp removed
  cases pure_eq_ok.mp equal
  exact ⟨lookup_filter_self s.slots id, fun other apart => lookup_filter_ne s.slots apart⟩

theorem declare_eq_ok {s s' : Store} {id : VariableId} {ty : Ty}
    (declared : s.declare id ty = .ok s') : s.find? id = none ∧ s' = s.put id (.default ty) := by
  unfold declare at declared
  split at declared
  · cases declared
  · rename_i absent
    cases declared
    exact ⟨absent, rfl⟩

end Immediate.Store
