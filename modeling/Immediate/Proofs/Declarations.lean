import Immediate.Proofs.Sameness
/-! Declared child types beside contents. Forgetting every declaration leaves the contents with the
order of their pairs, and sameness cannot tell the difference. -/
namespace Immediate.Value

mutual

/-- The value with every declared child type forgotten, at all depths. -/
def bare : Value → Value
  | .list _ items => .list none (bareItems items)
  | .iterator _ items => .iterator none (bareItems items)
  | .map _ _ pairs => .map none none (barePairs pairs)
  | .entry _ _ key value => .entry none none (bareSlot key) (bareSlot value)
  | .integer width n => .integer width n
  | .float x => .float x
  | .double x => .double x
  | .string s => .string s
  | .entity e => .entity e
  | .position p => .position p

/-- The same for a slot. -/
def bareSlot : Option Value → Option Value
  | none => none
  | some v => some v.bare

/-- The same for the slots of a sequence. -/
def bareItems : List (Option Value) → List (Option Value)
  | [] => []
  | item :: rest => bareSlot item :: bareItems rest

/-- The same for the pairs of a map. -/
def barePairs : List (Value × Option Value) → List (Value × Option Value)
  | [] => []
  | (key, value) :: rest => (key.bare, bareSlot value) :: barePairs rest

end

theorem barePairs_eq_map (pairs : List (Value × Slot)) :
    barePairs pairs = pairs.map fun pair => (pair.1.bare, bareSlot pair.2) := by
  induction pairs with
  | nil => rfl
  | cons pair rest ih => simp only [barePairs, ih, List.map_cons]

private theorem sameSlot_bareSlot (slot other : Slot)
    (held : ∀ v ∈ slot, ∀ w : Value, same v.bare w.bare = same v w) :
    sameSlot (bareSlot slot) (bareSlot other) = sameSlot slot other := by
  cases slot with
  | none => cases other <;> rfl
  | some v =>
    cases other with
    | none => rfl
    | some w => exact held v rfl w

private theorem sameItems_bareItems {items : List Slot}
    (held : ∀ slot ∈ items, ∀ v ∈ slot, ∀ w : Value, same v.bare w.bare = same v w)
    (others : List Slot) : sameItems (bareItems items) (bareItems others) = sameItems items others := by
  induction items generalizing others with
  | nil => cases others <;> rfl
  | cons item rest ih =>
    cases others with
    | nil => rfl
    | cons other others =>
      have head := sameSlot_bareSlot item other (held item List.mem_cons_self)
      have tail := ih (fun slot member => held slot (List.mem_cons_of_mem _ member)) others
      simp only [bareItems, sameItems, head, tail]

private theorem pairsWithin_barePairs {pairs : List (Value × Slot)}
    (keys : ∀ pair ∈ pairs, ∀ w : Value, same pair.1.bare w.bare = same pair.1 w)
    (values : ∀ pair ∈ pairs, ∀ v ∈ pair.2, ∀ w : Value, same v.bare w.bare = same v w)
    (others : List (Value × Slot)) :
    pairsWithin (barePairs pairs) (barePairs others) = pairsWithin pairs others := by
  induction pairs with
  | nil => rfl
  | cons pair rest ih =>
    obtain ⟨key, slot⟩ := pair
    have tail := ih (fun pair member => keys pair (List.mem_cons_of_mem _ member))
      (fun pair member => values pair (List.mem_cons_of_mem _ member))
    have keyHeld : ∀ w : Value, same key.bare w.bare = same key w := keys (key, slot) List.mem_cons_self
    have slotHeld (other : Slot) :=
      sameSlot_bareSlot slot other (values (key, slot) List.mem_cons_self)
    simp only [barePairs, pairsWithin, tail]
    rw [barePairs_eq_map others, List.find?_map]
    simp only [Function.comp_def, keyHeld]
    cases others.find? fun pair => same key pair.1 with
    | none => rfl
    | some found => simp only [Option.map_some, slotHeld]

/-- Sameness sees contents alone. -/
theorem same_bare (v w : Value) : same v.bare w.bare = same v w := by
  induction v generalizing w with
  | integer | float | double | string | entity | position => cases w <;> rfl
  | list element items ih =>
    cases w with
    | list element' others => exact sameItems_bareItems ih others
    | _ => rfl
  | iterator element items ih =>
    cases w with
    | iterator element' others => exact sameItems_bareItems ih others
    | _ => rfl
  | map keyTy valueTy pairs keys values =>
    cases w with
    | map keyTy' valueTy' others =>
      simp only [bare, same, pairsWithin_barePairs keys values others]
      simp only [barePairs_eq_map, List.length_map]
    | _ => rfl
  | entry keyTy valueTy key value keyHeld valueHeld =>
    cases w with
    | entry keyTy' valueTy' key' value' =>
      simp only [bare, same, sameSlot_bareSlot key key' keyHeld,
        sameSlot_bareSlot value value' valueHeld]
    | _ => rfl

/-- Values with the same contents in the same order are the same. -/
theorem same_of_bare_eq {v w : Value} (keyed : v.Keyed) (equal : w.bare = v.bare) :
    same w v = true := by
  rw [← same_bare, equal, same_bare]
  exact same_refl keyed

theorem sameSlot_of_bareSlot_eq {slot other : Slot} (keyed : SlotKeyed slot)
    (equal : bareSlot other = bareSlot slot) : sameSlot other slot = true := by
  cases slot with
  | none =>
    cases other with
    | none => rfl
    | some w => cases equal
  | some v =>
    cases other with
    | none => cases equal
    | some w => exact same_of_bare_eq (keyed v rfl) (Option.some.inj equal)

end Immediate.Value
