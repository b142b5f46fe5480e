import Mathlib.Data.Nat.Find
import Immediate.Editing.Change
/-! Removals at positions of a sequence. Positions are found before the removals and applied to a
sequence that gets shorter under them: a last element is dropped, any other one is emptied. The target
is that no element is ever hit that was not addressed, and that from last to first, the addressed
elements at the end are dropped as one. -/
namespace Immediate.Value

/-! ### Positions of a sequence -/

/-- Whether there is an element at a position and it is not empty. -/
def holdsAt (items : List Slot) (i : Nat) : Bool := ((items[i]?).getD none).isSome

/-- How many positions at the end are all addressed: the greatest number of which that is true. -/
def trailing (addressed : Nat → Bool) (n : Nat) : Nat :=
  Nat.findGreatest (fun t => ∀ i < n, n - t ≤ i → addressed i = true) n

/-- Removals at positions, one after another, and how many of them changed something. -/
def removeItems : List Nat → List Slot → List Slot × Nat
  | [], items => (items, 0)
  | i :: rest, items =>
    let (items, changed) := removeItem items i
    let (items, n) := removeItems rest items
    (items, n + changed.toNat)

/-- A beginning of a sequence is left, in which some addressed elements are empty, and only addressed
elements were dropped. -/
structure Thinned (addressed : Nat → Bool) (items items' : List Slot) : Prop where
  short : items'.length ≤ items.length
  dropped : ∀ i < items.length, items'.length ≤ i → addressed i = true
  rest : ∀ i < items'.length,
    items'[i]? = items[i]? ∨ addressed i = true ∧ items'[i]? = some none

/-- The addressed elements at the end of a sequence are gone, all others that are addressed are
empty, and what is not addressed is as before. Those that were dropped are counted, and of the emptied
ones those that were not empty. -/
structure Swept (addressed : Nat → Bool) (items items' : List Slot) (counted : Nat) : Prop where
  length : items'.length = items.length - trailing addressed items.length
  emptied : ∀ i < items'.length, addressed i = true → items'[i]? = some none
  kept : ∀ i < items'.length, addressed i = false → items'[i]? = items[i]?
  counted : counted = trailing addressed items.length +
    (List.range items'.length).countP fun i => addressed i && holdsAt items i

section Trailing
variable {addressed other : Nat → Bool} {n : Nat}

theorem trailing_le : trailing addressed n ≤ n := Nat.findGreatest_le n

theorem addressed_of_trailing {i : Nat} (inside : i < n) (late : n - trailing addressed n ≤ i) :
    addressed i = true := by
  have none : ∀ i < n, n - 0 ≤ i → addressed i = true := fun i inside late => by omega
  have greatest := Nat.findGreatest_spec
    (P := fun t => ∀ i < n, n - t ≤ i → addressed i = true) (Nat.zero_le n) none
  exact greatest i inside late

theorem not_addressed_before_trailing (short : trailing addressed n < n) :
    addressed (n - trailing addressed n - 1) = false := by
  refine eq_false_of_ne_true fun before => ?_
  have more : ¬ ∀ i < n, n - (trailing addressed n + 1) ≤ i → addressed i = true :=
    Nat.findGreatest_is_greatest (Nat.lt_succ_self _) short
  refine more fun i inside late => ?_
  by_cases first : i = n - trailing addressed n - 1
  · rw [first]
    exact before
  · exact addressed_of_trailing inside (by omega)

theorem trailing_eq {t : Nat} (short : t ≤ n) (all : ∀ i < n, n - t ≤ i → addressed i = true)
    (most : t < n → addressed (n - t - 1) = false) : trailing addressed n = t := by
  refine Nat.findGreatest_eq_iff.mpr ⟨short, fun _ => all, fun u longer within every => ?_⟩
  have before := every (n - t - 1) (by omega) (by omega)
  rw [most (by omega)] at before
  cases before

theorem trailing_congr (same : ∀ i < n, addressed i = other i) :
    trailing addressed n = trailing other n := by
  refine trailing_eq trailing_le (fun i inside late => ?_) fun short => ?_
  · rw [same i inside]
    exact addressed_of_trailing inside late
  · rw [same _ (by omega)]
    exact not_addressed_before_trailing short

theorem trailing_succ (last : addressed n = true) :
    trailing addressed (n + 1) = trailing addressed n + 1 := by
  have short : trailing addressed n ≤ n := trailing_le
  refine trailing_eq (by omega) (fun i inside late => ?_) fun shorter => ?_
  · by_cases end_ : i = n
    · rw [end_]
      exact last
    · have within : i < n := by omega
      exact addressed_of_trailing within (by omega)
  · have before : addressed (n - trailing addressed n - 1) = false :=
      not_addressed_before_trailing (by omega)
    rwa [show n + 1 - (trailing addressed n + 1) - 1 = n - trailing addressed n - 1 by omega]

theorem trailing_eq_zero (last : addressed (n - 1) = false) : trailing addressed n = 0 :=
  trailing_eq (Nat.zero_le n) (fun i inside late => by omega) fun _ => last

end Trailing

/-! ### Removals at positions -/

variable {items : List Slot}

theorem removeItem_last {i : Nat} (last : i + 1 = items.length) :
    removeItem items i = (items.dropLast, true) := if_pos last

theorem removeItem_inner {i : Nat} (inner : i + 1 ≠ items.length) :
    removeItem items i = (items.set i none, holdsAt items i) := if_neg inner

theorem removeItems_append (first second : List Nat) (items : List Slot) :
    removeItems (first ++ second) items =
      ((removeItems second (removeItems first items).1).1,
        (removeItems first items).2 + (removeItems second (removeItems first items).1).2) := by
  induction first generalizing items with
  | nil => simp [removeItems]
  | cons i rest ih =>
    simp only [List.cons_append, removeItems, ih]
    refine Prod.ext rfl ?_
    dsimp only
    omega

private theorem thinned_removeItem (items : List Slot) (i : Nat) :
    Thinned (fun j => decide (j = i)) items (removeItem items i).1 := by
  by_cases last : i + 1 = items.length
  · rw [removeItem_last last]
    refine ⟨by simp, fun j inside late => ?_, fun j inside => .inl ?_⟩
    · rw [List.length_dropLast] at late
      exact decide_eq_true (by omega)
    · rw [List.length_dropLast] at inside
      rw [List.getElem?_dropLast, if_pos inside]
  · rw [removeItem_inner last]
    refine ⟨by simp, fun j inside late => ?_, fun j inside => ?_⟩
    · rw [List.length_set] at late
      omega
    · rw [List.length_set] at inside
      by_cases hit : i = j
      · subst hit
        exact .inr ⟨decide_eq_true rfl, List.getElem?_set_self inside⟩
      · exact .inl (List.getElem?_set_ne hit)

/-- Removals in any order, with repetitions, hit addressed elements only. -/
theorem thinned_removeItems (positions : List Nat) (items : List Slot) :
    Thinned positions.contains items (removeItems positions items).1 := by
  induction positions generalizing items with
  | nil =>
    refine ⟨Nat.le_refl _, fun i inside late => ?_, fun i _ => .inl rfl⟩
    exact absurd inside (Nat.not_lt.mpr late)
  | cons i rest ih =>
    have first := thinned_removeItem items i
    have later := ih (removeItem items i).1
    simp only [removeItems]
    refine ⟨Nat.le_trans later.short first.short, fun j inside late => ?_, fun j inside => ?_⟩
    · by_cases gone : (removeItem items i).1.length ≤ j
      · simp [of_decide_eq_true (first.dropped j inside gone)]
      · have dropped := later.dropped j (Nat.lt_of_not_le gone) late
        simp [List.contains_iff_mem.mp dropped]
    · rcases later.rest j inside with same | ⟨hit, empty⟩
      · rcases first.rest j (Nat.lt_of_lt_of_le inside later.short) with before | ⟨hit, empty⟩
        · exact .inl (same.trans before)
        · exact .inr ⟨by simp [of_decide_eq_true hit], same.trans empty⟩
      · exact .inr ⟨by simp [List.contains_iff_mem.mp hit], empty⟩

private theorem countP_range_of_one {p q : Nat → Bool} {n d : Nat} (inside : d < n)
    (apart : ∀ i ≠ d, p i = q i) (missed : q d = false) :
    (List.range n).countP p = (List.range n).countP q + (p d).toNat := by
  induction n with
  | zero => cases inside
  | succ n ih =>
    rw [List.range_succ, List.countP_append, List.countP_append]
    by_cases last : d = n
    · subst last
      have below : (List.range d).countP p = (List.range d).countP q :=
        List.countP_congr fun i member => by
          rw [apart i (Nat.ne_of_lt (List.mem_range.mp member))]
      rw [below]
      cases hit : p d <;> simp [hit, missed]
    · have here : p n = q n := apart n fun same => last same.symm
      have one : [n].countP p = [n].countP q := by simp [here]
      rw [ih (by omega), one]
      omega

section Swept
variable {items' : List Slot} {d n : Nat} {rest : List Nat}

/-- Before the other addressed positions the last one was dropped. -/
private theorem Swept.drop (last : d + 1 = items.length)
    (swept : Swept rest.contains items.dropLast items' n) :
    Swept (d :: rest).contains items items' (n + 1) := by
  obtain ⟨length, emptied, kept, counted⟩ := swept
  have shorter : items.dropLast.length = d := by rw [List.length_dropLast]; omega
  have apart (i : Nat) (early : i < d) : (d :: rest).contains i = rest.contains i := by
    simp [Nat.ne_of_lt early]
  have longer : trailing (d :: rest).contains items.length = trailing rest.contains d + 1 := by
    rw [← last, trailing_succ (by simp), trailing_congr apart]
  have same (i : Nat) (early : i < d) : items.dropLast[i]? = items[i]? := by
    rw [List.getElem?_dropLast, if_pos (by omega)]
  rw [shorter] at length counted
  have short : items'.length ≤ d := by omega
  refine ⟨by omega, fun i early hit => ?_, fun i early missed => ?_, ?_⟩
  · rw [apart i (by omega)] at hit
    exact emptied i early hit
  · rw [apart i (by omega)] at missed
    rw [kept i early missed, same i (by omega)]
  · have counts : (List.range items'.length).countP
          (fun i => rest.contains i && holdsAt items.dropLast i) =
        (List.range items'.length).countP fun i => (d :: rest).contains i && holdsAt items i := by
      refine List.countP_congr fun i member => ?_
      have early := List.mem_range.mp member
      rw [apart i (by omega), holdsAt, same i (by omega), holdsAt]
    omega

/-- Before the other addressed positions one was emptied that is not the last. -/
private theorem Swept.empty (below : ∀ i ∈ rest, i < d) (inner : d + 1 < items.length)
    (swept : Swept rest.contains (items.set d none) items' n) :
    Swept (d :: rest).contains items items' (n + (holdsAt items d).toNat) := by
  obtain ⟨length, emptied, kept, counted⟩ := swept
  have within : d < items.length := by omega
  have apart (i : Nat) (other : i ≠ d) : (d :: rest).contains i = rest.contains i := by simp [other]
  have missed (i : Nat) (late : d ≤ i) : rest.contains i = false := by
    refine eq_false_of_ne_true fun hit => ?_
    exact absurd (below i (List.contains_iff_mem.mp hit)) (Nat.not_lt.mpr late)
  have none_late : trailing rest.contains items.length = 0 :=
    trailing_eq_zero (missed _ (by omega))
  have none_late' : trailing (d :: rest).contains items.length = 0 := by
    refine trailing_eq_zero ?_
    rw [apart _ (by omega)]
    exact missed _ (by omega)
  rw [List.length_set, none_late] at length counted
  refine ⟨by rw [length, none_late'], fun i early hit => ?_, fun i early free => ?_, ?_⟩
  · by_cases here : i = d
    · rw [here, kept d (by omega) (missed d (Nat.le_refl d)), List.getElem?_set_self within]
    · rw [apart i here] at hit
      exact emptied i early hit
  · have here : i ≠ d := fun same => by simp [same] at free
    rw [apart i here] at free
    rw [kept i early free, List.getElem?_set_ne fun same => here same.symm]
  · have one := countP_range_of_one (n := items.length)
      (p := fun i => (d :: rest).contains i && holdsAt items i)
      (q := fun i => rest.contains i && holdsAt (items.set d none) i) within
      (fun i other => by
        rw [apart i other, holdsAt, holdsAt, List.getElem?_set_ne fun same => other same.symm])
      (by rw [missed d (Nat.le_refl d), Bool.false_and])
    have hit : ((d :: rest).contains d && holdsAt items d) = holdsAt items d := by simp
    rw [hit] at one
    rw [counted, none_late', length, Nat.sub_zero, one]
    omega

end Swept

/-- From last to first, the elements at the end are dropped before any other is emptied. -/
theorem swept_removeItems {positions : List Nat} (falling : positions.Pairwise (· > ·))
    (inside : ∀ i ∈ positions, i < items.length) :
    Swept positions.contains items (removeItems positions items).1
      (removeItems positions items).2 := by
  induction positions generalizing items with
  | nil =>
    have none : trailing ([] : List Nat).contains items.length = 0 := trailing_eq_zero rfl
    refine ⟨?_, fun i _ hit => by simp at hit, fun _ _ _ => rfl, ?_⟩
    · rw [none]
      rfl
    · simp [removeItems, none]
  | cons d rest ih =>
    obtain ⟨below, falling⟩ := List.pairwise_cons.mp falling
    have within : d < items.length := inside d List.mem_cons_self
    simp only [removeItems]
    by_cases last : d + 1 = items.length
    · rw [removeItem_last last]
      refine Swept.drop last (ih falling fun i member => ?_)
      rw [List.length_dropLast, ← last]
      exact below i member
    · rw [removeItem_inner last]
      refine Swept.empty below (by omega) (ih falling fun i member => ?_)
      rw [List.length_set]
      exact Nat.lt_trans (below i member) within

/-- Where addressed positions are swept, removing them once more does nothing. -/
theorem Swept.removeItems_eq {addressed : Nat → Bool} {items' : List Slot} {n : Nat}
    (swept : Swept addressed items items' n) {positions : List Nat}
    (among : ∀ i ∈ positions, addressed i = true) : removeItems positions items' = (items', 0) := by
  induction positions with
  | nil => rfl
  | cons i rest ih =>
    obtain ⟨hit, others⟩ := List.forall_mem_cons.mp among
    have inner : i + 1 ≠ items'.length := by
      intro last
      have length := swept.length
      have before : addressed (items.length - trailing addressed items.length - 1) = false :=
        not_addressed_before_trailing (by omega)
      rw [show items.length - trailing addressed items.length - 1 = i by omega, hit] at before
      cases before
    have kept : removeItem items' i = (items', false) := by
      rw [removeItem_inner inner, holdsAt]
      by_cases inside : i < items'.length
      · have empty := swept.emptied i inside hit
        rw [empty]
        rw [List.getElem?_eq_getElem inside] at empty
        have same := List.set_getElem_self inside
        rw [Option.some.inj empty] at same
        rw [same]
        rfl
      · have outside := Nat.le_of_not_lt inside
        rw [List.set_eq_of_length_le outside, List.getElem?_eq_none outside]
        rfl
    simp only [removeItems, kept, ih others]
    rfl

/-- One pass from last to first does it all: more of the same change nothing. -/
theorem swept_removeItems_flatten {positions : List Nat} (falling : positions.Pairwise (· > ·))
    (inside : ∀ i ∈ positions, i < items.length) {passes : List (List Nat)}
    (each : ∀ pass ∈ passes, pass = positions ∨ pass = []) :
    Swept passes.flatten.contains items (removeItems passes.flatten items).1
      (removeItems passes.flatten items).2 := by
  induction passes with
  | nil => exact swept_removeItems .nil nofun
  | cons pass passes ih =>
    obtain ⟨first, others⟩ := List.forall_mem_cons.mp each
    rcases first with rfl | rfl
    · have among : ∀ i ∈ passes.flatten, i ∈ pass := by
        intro i member
        obtain ⟨other, listed, within⟩ := List.mem_flatten.mp member
        rcases others other listed with rfl | rfl
        · exact within
        · cases within
      have swept := swept_removeItems falling inside
      have again := swept.removeItems_eq fun i member => List.contains_iff_mem.mpr (among i member)
      have same : (pass ++ passes.flatten).contains = pass.contains := by
        funext i
        rw [Bool.eq_iff_iff]
        simpa using among i
      rw [List.flatten_cons, removeItems_append, again, same]
      exact swept
    · exact ih others

end Immediate.Value
