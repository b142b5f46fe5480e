import Mathlib.Data.List.Forall2
import Immediate.Proofs.Editing.Reached
/-! What an observer is told. Whether a step of an edit changed anything is decided where it is made, at
a slot of a container or at the variable as a whole. The target is that this is so just if the whole
variable holds another value after the step than before, so that what is told and what is counted are
the steps that made a difference, in order. -/
namespace Immediate

open Edit Outcome Value

namespace Value

/-! ### Values that are the same read the same -/

variable {a b : Slot} {step : Step} {slot : Slot}

theorem sameSlot_comm (first : SlotKeyed a) (second : SlotKeyed b) : sameSlot a b = sameSlot b a := by
  cases a with
  | none => cases b <;> rfl
  | some v =>
    cases b with
    | none => rfl
    | some w => exact same_comm (first v rfl) (second w rfl)

theorem sameSlot_trans {c : Slot} (first : SlotKeyed a) (second : SlotKeyed b) (third : SlotKeyed c)
    (left : sameSlot a b = true) (right : sameSlot b c = true) : sameSlot a c = true := by
  cases a with
  | none =>
    cases b with
    | none => exact right
    | some w => cases left
  | some v =>
    cases b with
    | none => cases left
    | some w =>
      cases c with
      | none => cases right
      | some u => exact same_trans (first v rfl) (second w rfl) (third u rfl) left right

private theorem getElem?_of_sameItems {items others : List Slot} {i : Nat}
    (held : sameItems items others = true) (found : items[i]? = some slot) :
    ∃ other, others[i]? = some other ∧ sameSlot slot other = true := by
  have each := sameItems_iff.mp held
  obtain ⟨inside, rfl⟩ := List.getElem?_eq_some_iff.mp found
  have within : i < others.length := each.length_eq ▸ inside
  exact ⟨others[i], List.getElem?_eq_getElem within, (List.forall₂_iff_get.mp each).2 i inside within⟩

private theorem lookup_of_pairsWithin {pairs others : List (Value × Slot)} {key : Value}
    (first : PairsKeyed pairs) (second : PairsKeyed others) (own : key.Keyed)
    (within : pairsWithin pairs others = true) (found : lookup pairs key = some slot) :
    ∃ other, lookup others key = some other ∧ sameSlot slot other = true := by
  obtain ⟨pair, member, spelled, rfl⟩ := exists_of_lookup found
  obtain ⟨partner, isFound, same⟩ := pairsWithin_iff.mp within pair member
  refine ⟨partner.2, ?_, same⟩
  rw [← lookup_congr second own (first.keys pair member) spelled, lookup, isFound]
  rfl

private theorem child_of_same {v w : Value} (first : v.Keyed) (second : w.Keyed) (own : step.Keyed)
    (held : same v w = true) (child : Child step v slot) :
    ∃ other, Child step w other ∧ sameSlot slot other = true := by
  cases child with
  | listItem found =>
    cases w <;> simp [same] at held
    obtain ⟨other, there, same⟩ := getElem?_of_sameItems held found
    exact ⟨other, .listItem there, same⟩
  | iteratorItem found =>
    cases w <;> simp [same] at held
    obtain ⟨other, there, same⟩ := getElem?_of_sameItems held found
    exact ⟨other, .iteratorItem there, same⟩
  | mapValue found =>
    cases w <;> simp [same] at held
    obtain ⟨other, there, same⟩ :=
      lookup_of_pairsWithin (keyed_map_iff.mp first) (keyed_map_iff.mp second) own held.2 found
    exact ⟨other, .mapValue there, same⟩
  | entryKey =>
    cases w <;> simp [same] at held
    exact ⟨_, .entryKey, held.1⟩
  | entryValue =>
    cases w <;> simp [same] at held
    exact ⟨_, .entryValue, held.2⟩

/-- Slots that are the same hold the same at every location. -/
theorem at?_of_sameSlot {location : Location} (first : SlotKeyed a) (second : SlotKeyed b)
    (own : location.Keyed) (held : sameSlot a b = true) (read : at? location a = .ok slot) :
    ∃ other, at? location b = .ok other ∧ sameSlot slot other = true := by
  induction location generalizing a b with
  | nil =>
    cases read
    exact ⟨b, rfl, held⟩
  | cons step rest ih =>
    obtain ⟨stepKeyed, restKeyed⟩ := Location.keyed_cons.mp own
    rw [at?_cons] at read
    obtain ⟨inner, reached, below⟩ := bind_eq_ok.mp read
    obtain ⟨v, rfl, child⟩ := at?_step_eq_ok.mp reached
    cases b with
    | none => cases held
    | some w =>
      obtain ⟨inner', child', same⟩ := child_of_same (first v rfl) (second w rfl) stepKeyed held child
      have reached' : at? [step] (some w) = .ok inner' := at?_step_eq_ok.mpr ⟨w, rfl, child'⟩
      rw [at?_cons, reached']
      exact ih (keyed_at? first reached) (keyed_at? second reached') restKeyed same below

/-! ### A change of a container -/

/-- A container is kept as it was, or another one takes its place. -/
def Shown (before after : Slot) (changed : Bool) : Prop :=
  changed = false ∧ after = before ∨ changed = true ∧ sameSlot before after = false

private theorem shown_list {items items' : List Slot} {changed : Bool} (element : Option Ty)
    (shown : changed = false ∧ items' = items ∨ changed = true ∧ sameItems items items' = false) :
    Shown (some (.list element items)) (some (.list element items')) changed ∧
      Shown (some (.iterator element items)) (some (.iterator element items')) changed := by
  rcases shown with ⟨rfl, rfl⟩ | ⟨rfl, apart⟩
  · exact ⟨.inl ⟨rfl, rfl⟩, .inl ⟨rfl, rfl⟩⟩
  · exact ⟨.inr ⟨rfl, apart⟩, .inr ⟨rfl, apart⟩⟩

theorem shown_assignChild {new parent parent' : Slot} {changed : Bool} (keyed : SlotKeyed parent)
    (own : step.Keyed) (value : SlotKeyed new)
    (run : assignChild step new parent = .ok (parent', changed)) : Shown parent parent' changed := by
  obtain ⟨known, x, declared, cast, ⟨rfl, rfl, -⟩ | ⟨rfl, rfl, missed⟩⟩ := assignChild_cases run
  · exact .inl ⟨rfl, rfl⟩
  · refine .inr ⟨rfl, eq_false_of_ne_true fun same => ?_⟩
    obtain ⟨v, rfl, suits⟩ := suits_of_childTy? declared
    have cast_keyed := slotKeyed_of_castSlot value cast
    have written : at? [step] (putChild step x (some v)) = .ok x :=
      at?_putChild_same (keyed v rfl) own own suits (Step.same_refl own)
    have put_keyed := keyed_putChild (keyed v rfl) own cast_keyed suits
    rw [sameSlot_comm keyed put_keyed] at same
    have location : Location.Keyed [step] := Location.keyed_cons.mpr ⟨own, nofun⟩
    obtain ⟨old, there, held⟩ := at?_of_sameSlot put_keyed keyed location same written
    rw [sameSlot_comm cast_keyed (keyed_at? keyed there), missed old there] at held
    cases held

private theorem shown_removeItem (items : List Slot) (i : Nat) :
    (removeItem items i).2 = false ∧ (removeItem items i).1 = items ∨
      (removeItem items i).2 = true ∧ sameItems items (removeItem items i).1 = false := by
  unfold removeItem
  by_cases last : i + 1 = items.length
  · refine .inr ⟨by rw [if_pos last], eq_false_of_ne_true fun same => ?_⟩
    rw [if_pos last] at same
    have long := (sameItems_iff.mp same).length_eq
    rw [List.length_dropLast] at long
    omega
  · rw [if_neg last]
    cases there : items[i]? with
    | none => exact .inl ⟨rfl, List.set_eq_of_length_le (List.getElem?_eq_none_iff.mp there)⟩
    | some item =>
      obtain ⟨inside, rfl⟩ := List.getElem?_eq_some_iff.mp there
      cases empty : items[i] with
      | none =>
        refine .inl ⟨rfl, ?_⟩
        have kept := List.set_getElem_self inside
        rwa [empty] at kept
      | some v =>
        refine .inr ⟨rfl, eq_false_of_ne_true fun same => ?_⟩
        rw [empty] at there
        obtain ⟨other, found, held⟩ := getElem?_of_sameItems same there
        rw [List.getElem?_set_self inside] at found
        cases found
        cases held

theorem erase_of_absent {pairs : List (Value × Slot)} {key : Value}
    (absent : lookup pairs key = none) : erase pairs key = pairs := by
  induction pairs with
  | nil => rfl
  | cons head rest ih =>
    rw [lookup_cons] at absent
    by_cases here : same key head.1 = true
    · simp [here] at absent
    · rw [if_neg here] at absent
      simp [erase, here, ih absent]

theorem length_erase_of_present {pairs : List (Value × Slot)} {key : Value}
    (present : lookup pairs key = some slot) : (erase pairs key).length + 1 = pairs.length := by
  induction pairs with
  | nil => cases present
  | cons head rest ih =>
    rw [lookup_cons] at present
    by_cases here : same key head.1 = true
    · simp [erase, here]
    · rw [if_neg here] at present
      simp [erase, here, ih present]

private theorem shown_erase (pairs : List (Value × Slot)) (key : Value) (keyTy valueTy : Option Ty) :
    Shown (some (.map keyTy valueTy pairs)) (some (.map keyTy valueTy (erase pairs key)))
      (lookup pairs key).isSome := by
  cases present : lookup pairs key with
  | none => exact .inl ⟨rfl, by rw [erase_of_absent present]⟩
  | some slot =>
    have shorter := length_erase_of_present present
    refine .inr ⟨rfl, eq_false_of_ne_true fun same => ?_⟩
    have long : pairs.length = (erase pairs key).length := by
      simp [sameSlot, Value.same] at same
      exact same.1
    omega

theorem shown_removeChild {parent parent' : Slot} {changed : Bool}
    (run : removeChild step parent = .ok (parent', changed)) : Shown parent parent' changed := by
  cases parent with
  | none => cases run
  | some v =>
    cases v with
    | list element items =>
      cases step with
      | index i =>
        cases run
        exact (shown_list element (shown_removeItem items i)).1
      | _ => cases run
    | iterator element items =>
      cases step with
      | index i =>
        cases run
        exact (shown_list element (shown_removeItem items i)).2
      | _ => cases run
    | map keyTy valueTy pairs =>
      cases step with
      | mapKey key =>
        cases run
        exact shown_erase pairs key keyTy valueTy
      | _ => cases run
    | _ => cases step <;> cases run

/-- Where a container below a value is kept or another takes its place, so it is for the whole. -/
theorem Shown.putAt {location : Location} {root parent parent' : Slot} {changed : Bool}
    (shown : Shown parent parent' changed) (keyed : SlotKeyed root) (own : location.Keyed)
    (there : at? location root = .ok parent) (value : SlotKeyed parent') :
    Shown root (putAt location parent' root) changed := by
  rcases shown with ⟨rfl, rfl⟩ | ⟨rfl, apart⟩
  · exact .inl ⟨rfl, putAt_of_at? there⟩
  · refine .inr ⟨rfl, eq_false_of_ne_true fun same => ?_⟩
    have writable := writable_of_at? there
    obtain ⟨other, read, held⟩ :=
      at?_of_sameSlot keyed (keyed_putAt writable keyed own value) own same there
    rw [at?_putAt_of_covers writable keyed own own (Location.covers_refl own), List.drop_length] at read
    cases read
    rw [apart] at held
    cases held

end Value

/-! ### A change of a variable -/

namespace TypedValue

variable {t t' : TypedValue} {location : Location} {changed : Bool}

/-- An assignment tells of a change just if the variable holds another value after it. -/
theorem changed_assignAt {new : Slot} (keyed : SlotKeyed t.slot) (own : location.Keyed)
    (value : SlotKeyed new) (run : t.assignAt location new = .ok (t', changed)) :
    changed = !sameSlot t.slot t'.slot := by
  rcases List.eq_nil_or_concat location with rfl | ⟨front, step, rfl⟩
  · obtain ⟨assigned, ran, equal⟩ := bind_eq_ok.mp run
    obtain ⟨x, cast, rfl⟩ := map_eq_ok.mp ran
    cases pure_eq_ok.mp equal
    rw [sameSlot_comm keyed (slotKeyed_of_castSlot value cast)]
  · rw [List.concat_eq_append] at run own
    have whole := (assigned_of_assignAt run).keyed keyed own value
    obtain ⟨frontKeyed, last⟩ := Location.keyed_append.mp own
    obtain ⟨parent, parent', there, assigned, rfl⟩ := parent_of_assignAt run
    have parentKeyed := keyed_at? keyed there
    have shown := shown_assignChild parentKeyed (last step List.mem_cons_self) value assigned
    have parentKeyed' : SlotKeyed parent' := by
      have written : at? front (putAt front parent' t.slot) = at? (front.drop front.length) parent' :=
        at?_putAt_of_covers (writable_of_at? there) keyed frontKeyed frontKeyed
          (Location.covers_refl frontKeyed)
      rw [List.drop_length] at written
      exact keyed_at? whole written
    rcases shown.putAt keyed frontKeyed there parentKeyed' with ⟨rfl, same⟩ | ⟨rfl, apart⟩
    · simp [same, sameSlot_refl keyed]
    · simp [apart]

/-- A removal tells of a change just if the variable holds another value after it. -/
theorem changed_removeAt (keyed : SlotKeyed t.slot) (own : location.Keyed)
    (run : t.removeAt location = .ok (t', changed)) : changed = !sameSlot t.slot t'.slot := by
  rcases List.eq_nil_or_concat location with rfl | ⟨front, step, rfl⟩
  · cases run
    simp [sameSlot_refl keyed]
  · rw [List.concat_eq_append] at run own
    have frontKeyed := (Location.keyed_append.mp own).1
    obtain ⟨parent, parent', there, removed, rfl⟩ := parent_of_removeAt run
    have parentKeyed := keyed_removeChild (keyed_at? keyed there) removed
    rcases (shown_removeChild removed).putAt keyed frontKeyed there parentKeyed with
      ⟨rfl, same⟩ | ⟨rfl, apart⟩
    · simp [same, sameSlot_refl keyed]
    · simp [apart]

/-! ### Changes one after another -/

/-- A step of an edit: where it was made, and the variable just before and just after it. -/
structure Passage where
  location : Location
  before : TypedValue
  after : TypedValue

/-- Whether the variable holds another value after a step than before. -/
def Passage.differs (step : Passage) : Bool := !sameSlot step.before.slot step.after.slot

/-- The steps of changes one after another. One that fails leaves the variable as it is. -/
def course (t : TypedValue) : List (Location × Alteration) → List Passage
  | [] => []
  | (location, change) :: rest =>
    let u := t.altered [change]
    ⟨location, t, u⟩ :: u.course rest

/-- The locations at which changes one after another tell of a change. -/
def noted (t : TypedValue) : List (Location × Alteration) → List Location
  | [] => []
  | (location, change) :: rest =>
    match change t with
    | .ok (u, true) => location :: u.noted rest
    | .ok (u, false) => u.noted rest
    | .error _ => t.noted rest

theorem altered_cons (t : TypedValue) (change : Alteration) (rest : List Alteration) :
    t.altered (change :: rest) = (t.altered [change]).altered rest := by
  simp only [altered]
  cases change t <;> rfl

theorem mem_course {changes : List (Location × Alteration)}
    {step : Passage} (member : step ∈ t.course changes) :
    ∃ change ∈ changes, change.1 = step.location := by
  induction changes generalizing t with
  | nil => cases member
  | cons change rest ih =>
    rcases List.mem_cons.mp member with rfl | later
    · exact ⟨change, List.mem_cons_self, rfl⟩
    · obtain ⟨other, inside, same⟩ := ih later
      exact ⟨other, List.mem_cons_of_mem _ inside, same⟩

/-- A change that keeps keys apart and tells of a change just if there is one. -/
def Exact (change : Alteration) : Prop := ∀ t t' changed, SlotKeyed t.slot →
  change t = .ok (t', changed) → SlotKeyed t'.slot ∧ changed = !sameSlot t.slot t'.slot

variable {changes : List (Location × Alteration)}

theorem keyed_altered (exact : ∀ change ∈ changes, Exact change.2) (keyed : SlotKeyed t.slot) :
    SlotKeyed (t.altered (changes.map (·.2))).slot := by
  refine altered_induction (motive := fun u => SlotKeyed u.slot) keyed ?_
  intro u u' flag change member keyed ran
  obtain ⟨located, inside, rfl⟩ := List.mem_map.mp member
  exact (exact located inside u u' flag keyed ran).1

/-- What is told are the steps after which the variable holds another value. -/
theorem noted_eq_course (exact : ∀ change ∈ changes, Exact change.2) (keyed : SlotKeyed t.slot) :
    t.noted changes = ((t.course changes).filter (·.differs)).map (·.location) := by
  induction changes generalizing t with
  | nil => rfl
  | cons change rest ih =>
    obtain ⟨location, change⟩ := change
    obtain ⟨first, others⟩ := List.forall_mem_cons.mp exact
    cases ran : change t with
    | error e =>
      have differs : (⟨location, t, t⟩ : Passage).differs = false := by
        simp [Passage.differs, sameSlot_refl keyed]
      simp [noted, course, altered, ran, differs, ih others keyed]
    | ok result =>
      obtain ⟨u, flag⟩ := result
      obtain ⟨keyedNext, shown⟩ := first t u flag keyed ran
      have differs : (⟨location, t, u⟩ : Passage).differs = flag := shown.symm
      cases flag <;> simp [noted, course, altered, ran, differs, ih others keyedNext]

/-- Without a step that makes a difference, the variable holds in the end what it held. -/
theorem sameSlot_altered (exact : ∀ change ∈ changes, Exact change.2) (keyed : SlotKeyed t.slot)
    (none : (t.course changes).countP (·.differs) = 0) :
    sameSlot t.slot (t.altered (changes.map (·.2))).slot = true := by
  induction changes generalizing t with
  | nil => exact sameSlot_refl keyed
  | cons change rest ih =>
    obtain ⟨location, change⟩ := change
    obtain ⟨first, others⟩ := List.forall_mem_cons.mp exact
    have one : ∀ other ∈ [(location, change)], Exact other.2 := by simpa using first
    have keyedNext : SlotKeyed (t.altered [change]).slot := keyed_altered one keyed
    simp only [course, List.countP_cons, Nat.add_eq_zero_iff] at none
    have here : sameSlot t.slot (t.altered [change]).slot = true := by
      simpa [Passage.differs] using none.2
    rw [List.map_cons, altered_cons]
    exact sameSlot_trans keyed keyedNext (keyed_altered others keyedNext) here
      (ih others keyedNext none.1)

theorem exact_assignAt {location : Location} {new : Slot} (own : location.Keyed)
    (value : SlotKeyed new) : Exact fun t => t.assignAt location new :=
  fun _ _ _ keyed run =>
    ⟨(assigned_of_assignAt run).keyed keyed own value, changed_assignAt keyed own value run⟩

theorem exact_removeAt {location : Location} (own : location.Keyed) :
    Exact fun t => t.removeAt location :=
  fun _ _ _ keyed run => ⟨keyed_removeAt keyed own run, changed_removeAt keyed own run⟩

end TypedValue

namespace Path

variable {base : VariableId} {world : World} {p : Path} {w : Workspace} {t : TypedValue} {n : Nat}

/-- Changes note, in order, where they tell of a change, and count that. -/
theorem noted_of_changeEach {isStream : Bool} {changes : List (Location × Alteration)}
    (held : w.store.find? base = some t) (run : (changeEach base isStream changes).result w = .ok n) :
    n = (t.noted changes).length ∧ ((changeEach base isStream changes).after w).changes =
      w.changes ++ (t.noted changes).map fun location => (base, location) := by
  induction changes generalizing w t n with
  | nil =>
    cases run
    exact ⟨rfl, (List.append_nil _).symm⟩
  | cons change rest ih =>
    obtain ⟨location, change⟩ := change
    rw [result_changeEach_cons held] at run
    rw [after_changeEach_cons held]
    simp only [TypedValue.noted]
    cases ran : change t with
    | error e =>
      rw [ran] at run
      cases isStream with
      | true => exact ih (w := { w with reports := w.reports ++ [e] }) held run
      | false => cases run
    | ok result =>
      obtain ⟨u, flag⟩ := result
      rw [ran] at run
      have now : (w.store.put base u).find? base = some u := Store.find?_put_self ..
      cases flag with
      | true =>
        obtain ⟨m, later, rfl⟩ := map_eq_ok.mp run
        obtain ⟨counted, told⟩ := ih (w := Path.noted w base u location) now later
        refine ⟨by simp [counted], told.trans ?_⟩
        simp [Path.noted]
      | false => exact ih (w := { w with store := w.store.put base u }) now run

theorem noted_of_changing {isStream : Bool} {changes : List (Location × Alteration)} {looked : Workspace}
    (same : looked.store = w.store) (kept : looked.changes = w.changes)
    (held : w.store.find? base = some t)
    (run : (changing base isStream changes).result looked = .ok n) :
    n = (t.noted changes).length ∧ ((changing base isStream changes).after looked).changes =
      w.changes ++ (t.noted changes).map fun location => (base, location) := by
  rw [← same] at held
  obtain ⟨result, after⟩ := run_changing isStream changes held
  rw [result] at run
  rw [after, ← kept]
  exact noted_of_changeEach (w := { looked with store := looked.store.mark base }) held run

/-! ### Assigning and removing -/

/-- The account of an edit that made changes one after another at locations of a path. The variable
is what they make of it; an observer was told, in order, where a step left it with another value than
before; and the number of these steps was given. -/
structure Account (p : Path) (before after : Workspace) (locations : List Location)
    (changes : List (Location × Alteration)) (t : TypedValue) (n : Nat) : Prop where
  held : before.store.find? p.base = some t
  left : after.store.find? p.base = some (t.altered (changes.map (·.2)))
  told : after.changes = before.changes ++
    ((t.course changes).filter (·.differs)).map fun step => (p.base, step.location)
  counted : n = ((t.course changes).filter (·.differs)).length
  located : ∀ step ∈ t.course changes,
    step.location ∈ locations ∧ step.location.length = p.accessors.length
  unchanged : n = 0 → sameSlot t.slot (t.altered (changes.map (·.2))).slot = true

private theorem account_of_changing {locations : List Location} {isStream : Bool}
    {changes : List (Location × Alteration)} {after looked : Workspace}
    (stored : w.store.Keyed) (exact : ∀ change ∈ changes, TypedValue.Exact change.2)
    (located : ∀ change ∈ changes, change.1 ∈ locations ∧ change.1.length = p.accessors.length)
    (looks : looked.store = w.store ∧ looked.changes = w.changes)
    (held : w.store.find? p.base = some t)
    (edited : Edited p w after isStream t changes (.ok n))
    (result : (changing p.base isStream changes).result looked = .ok n)
    (final : after = (changing p.base isStream changes).after looked) :
    Account p w after locations changes t n := by
  obtain ⟨done, left, ended⟩ := edited
  have finished : done = changes.map (·.2) := by
    cases ended
    rfl
  have keyed : SlotKeyed t.slot := stored _ t held
  obtain ⟨counted, told⟩ := noted_of_changing looks.1 looks.2 held result
  rw [TypedValue.noted_eq_course exact keyed] at counted told
  rw [List.length_map] at counted
  refine ⟨held, ?_, ?_, counted, fun step member => ?_, fun none => ?_⟩
  · rw [left.changed, finished]
  · rw [final, told, List.map_map]
    rfl
  · obtain ⟨change, inside, same⟩ := TypedValue.mem_course member
    rw [← same]
    exact located change inside
  · refine TypedValue.sameSlot_altered exact keyed ?_
    rw [List.countP_eq_length_filter, ← counted, none]

/-- A removal of slots that ends well made the changes, the last one first. -/
theorem run_remove {targets : Targets} (resolved : (p.resolve world false).result w = .ok targets)
    (below : p.accessors ≠ []) (run : (p.remove world).result w = .ok n) :
    (p.remove world).result w =
        (changing p.base targets.isStream (removing targets.locations.reverse)).result
          ((p.resolve world false).after w) ∧
      (p.remove world).after w =
        (changing p.base targets.isStream (removing targets.locations.reverse)).after
          ((p.resolve world false).after w) := by
  cases last : p.accessors.getLast? with
  | none => exact absurd (List.getLast?_eq_none_iff.mp last) below
  | some a =>
    by_cases half : a = .entryKey ∨ a = .entryValue
    · have refused : p.remove world = throw .removeFromEntry := by
        rcases half with rfl | rfl <;> simp only [remove, last]
      rw [refused] at run
      cases run
    · rw [not_or] at half
      rw [remove_eq_removingSlots last half.1 half.2]
      exact run_removingSlots resolved

theorem told_of_removed_variable (empty : p.accessors = [])
    (run : (p.remove world).result w = .ok n) :
    n = 1 ∧ ((p.remove world).after w).changes = w.changes ++ [(p.base, [])] ∧
      (∃ t, w.store.find? p.base = some t) ∧
      ((p.remove world).after w).store.find? p.base = none := by
  have last : p.accessors.getLast? = none := by rw [empty]; rfl
  cases removed : w.store.remove p.base with
  | error e =>
    simp only [remove, last, result_bind, result_store, after_store, ok_bind, removed, result_lift,
      error_bind] at run
    cases run
  | ok taken =>
    obtain ⟨t, s⟩ := taken
    obtain ⟨u, peeked, -⟩ := bind_eq_ok.mp removed
    have gone := (Store.find?_of_remove removed).1
    have held : ∃ t, w.store.find? p.base = some t := ⟨u, Store.peek_eq_ok.mp peeked⟩
    have result : (p.remove world).result w = .ok 1 := by
      simp only [remove, last, result_bind, result_store, after_store, ok_bind, removed, result_lift,
        after_lift, result_setStore, after_setStore, result_change, after_change, result_pure]
    have after : (p.remove world).after w = ⟨s, w.reports, w.changes ++ [(p.base, [])]⟩ := by
      simp only [remove, last, after_bind, result_store, after_store, removed, result_lift,
        after_lift, result_setStore, after_setStore, result_change, after_change, after_pure]
    rw [result] at run
    cases run
    rw [after]
    exact ⟨rfl, rfl, held, gone⟩

private theorem account_of_set {values : Evaluated} {n : Nat} (stored : w.store.Keyed)
    (constants : p.Keyed) (given : values.Keyed) (run : (p.set world values).result w = .ok n) :
    ∃ targets t, (p.resolve world true).result w = .ok targets ∧
      Account p w ((p.set world values).after w) targets.locations
        (assigning (values.pairedWith targets.locations)) t n := by
  rcases set_cases world p values w with ⟨⟨e, failed⟩, -⟩ |
    ⟨targets, assigned, t, resolved, paired, held, edited⟩
  · rw [run] at failed
    cases failed
  · refine ⟨targets, t, resolved, ?_⟩
    have looks := looks_resolve world true p
    have locations := keyed_of_resolve stored constants resolved
    have members := mem_of_assignments paired
    obtain ⟨result, after⟩ := run_set resolved paired
    rw [run] at edited result
    rw [← pairedWith_of_assignments paired]
    refine account_of_changing stored ?_ ?_ ⟨looks.store w, looks.changes w⟩ held edited
      result.symm after
    · intro change member
      obtain ⟨pair, inside, rfl⟩ := List.mem_map.mp member
      obtain ⟨located, valued⟩ := members pair inside
      exact TypedValue.exact_assignAt (locations pair.1 located) (given pair.2 valued)
    · intro change member
      obtain ⟨pair, inside, rfl⟩ := List.mem_map.mp member
      have located := (members pair inside).1
      exact ⟨located, (mem_of_resolve held resolved pair.1 located).1⟩

private theorem account_of_remove {n : Nat} (stored : w.store.Keyed) (constants : p.Keyed)
    (run : (p.remove world).result w = .ok n) (below : p.accessors ≠ []) :
    ∃ targets t, p.accessors ≠ [] ∧ (p.resolve world false).result w = .ok targets ∧
      Account p w ((p.remove world).after w) targets.locations
        (removing targets.locations.reverse) t n := by
  rcases remove_cases world p w with ⟨⟨e, failed⟩, -⟩ | ⟨empty, -⟩ |
    ⟨targets, t, -, resolved, held, edited⟩
  · rw [run] at failed
    cases failed
  · exact absurd empty below
  · refine ⟨targets, t, below, resolved, ?_⟩
    have looks := looks_resolve world false p
    have locations := keyed_of_resolve stored constants resolved
    obtain ⟨result, after⟩ := run_remove resolved below run
    rw [run] at edited result
    refine account_of_changing stored ?_ ?_ ⟨looks.store w, looks.changes w⟩ held edited
      result.symm after
    · intro change member
      obtain ⟨location, inside, rfl⟩ := List.mem_map.mp member
      exact TypedValue.exact_removeAt (locations location (List.mem_reverse.mp inside))
    · intro change member
      obtain ⟨location, inside, rfl⟩ := List.mem_map.mp member
      have located := List.mem_reverse.mp inside
      exact ⟨located, (mem_of_resolve held resolved location located).1⟩

/-- Assigning and removing account for what they do. An observer is told of the steps that made a
difference, in order, each at the path's variable and at a resolved location; and their number is the
count given. Removing a variable as a whole is one step. -/
theorem account_of_edit (stored : w.store.Keyed) (constants : p.Keyed) :
    (∀ (values : Evaluated) n, values.Keyed → (p.set world values).result w = .ok n →
      ∃ targets t, (p.resolve world true).result w = .ok targets ∧
        Account p w ((p.set world values).after w) targets.locations
          (assigning (values.pairedWith targets.locations)) t n) ∧
    ∀ n, (p.remove world).result w = .ok n →
      (p.accessors = [] ∧ n = 1 ∧
        ((p.remove world).after w).changes = w.changes ++ [(p.base, [])] ∧
        (∃ t, w.store.find? p.base = some t) ∧
        ((p.remove world).after w).store.find? p.base = none) ∨
      ∃ targets t, p.accessors ≠ [] ∧ (p.resolve world false).result w = .ok targets ∧
        Account p w ((p.remove world).after w) targets.locations
          (removing targets.locations.reverse) t n := by
  refine ⟨fun values n given run => account_of_set stored constants given run, fun n run => ?_⟩
  by_cases whole : p.accessors = []
  · exact .inl ⟨whole, told_of_removed_variable whole run⟩
  · exact .inr (account_of_remove stored constants run whole)

/-- In a list of three, one of four assignments changes its slot: another repeats it, one fails and one
stores the null that is there. A removal drops the last element and then the empty one before it, and
both are told. -/
theorem account_of_edit_repeated :
    let id : VariableId := ⟨"a", "b"⟩
    let number (n : Nat) : Slot := some (.integer .int n)
    let along (positions : List Slot) : Path :=
      ⟨id, [.index [.constant (some (.list none positions)), .allContents]]⟩
    let w : Workspace :=
      .of (Store.empty.put id ⟨.list (some .int), some (.list (some .int) [number 1, none, number 3])⟩)
    let p := along [number 0, number 0, number 2, number 1]
    let values : Evaluated := .many [number 7, number 7, some (.position .origin), none]
    let q := along [number 1, number 2]
    ((p.set .detached values).result w = .ok 1 ∧ ∃ t targets, Account p w
      ((p.set .detached values).after w) targets
        (assigning [([.index 0], number 7), ([.index 0], number 7),
          ([.index 2], some (.position .origin)), ([.index 1], none)]) t 1) ∧
      (q.remove .detached).result w = .ok 2 ∧ ∃ t targets, Account q w
        ((q.remove .detached).after w) targets (removing [[.index 2], [.index 1]]) t 2 := by
  intro id number along w p values q
  have assigned : (p.set .detached values).result w = .ok 1 := rfl
  have removed : (q.remove .detached).result w = .ok 2 := rfl
  have empty : Store.empty.Keyed := nofun
  have stored : w.store.Keyed := empty.put id (by decide)
  have constants {positions : List Slot} (keyed : ∀ slot ∈ positions, SlotKeyed slot) :
      (along positions).Keyed := by
    intro a member code inside slot among
    cases List.mem_singleton.mp member
    cases List.mem_singleton.mp inside
    rcases List.mem_cons.mp among with same | other
    · cases same
      exact slotKeyed_some (keyed_list_iff.mpr keyed)
    · simp at other
  have given : values.Keyed := by
    change ∀ slot ∈ [number 7, number 7, some (.position .origin), none], SlotKeyed slot
    decide
  obtain ⟨targets, t, resolved, account⟩ :=
    (account_of_edit stored (constants (by decide))).1 values 1 given assigned
  cases resolved
  refine ⟨⟨assigned, t, _, account⟩, removed, ?_⟩
  rcases (account_of_edit stored (constants (by decide))).2 2 removed with
    ⟨impossible, -⟩ | ⟨targets, u, -, resolved, account⟩
  · cases impossible
  · cases resolved
    exact ⟨u, _, account⟩

end Path
end Immediate
