import Immediate.Proofs.Editing.Locations
/-! What a write changes. A slot that is written at a location reads back there, whatever lies beside
the location reads as before, and nothing else comes to be read but empty slots that fill a sequence up
to the position written. Map keys count up to sameness, as maps find them. -/
namespace Immediate

open Outcome

/-! ### Locations up to sameness -/

/-- Whether two steps lead to one slot. -/
def Step.same : Step → Step → Bool
  | .index i, .index j => i = j
  | .mapKey key, .mapKey other => Value.same key other
  | .entryKey, .entryKey | .entryValue, .entryValue => true
  | _, _ => false

/-- Maps in the key that a step names keep their keys apart. -/
def Step.Keyed : Step → Prop
  | .mapKey key => key.Keyed
  | _ => True

theorem Step.same_comm {step other : Step} (own : step.Keyed) (others : other.Keyed) :
    step.same other = other.same step := by
  cases step with
  | index i =>
    cases other with
    | index j => simp [same, eq_comm]
    | _ => rfl
  | mapKey key =>
    cases other with
    | mapKey otherKey => exact Value.same_comm own others
    | _ => rfl
  | _ => cases other <;> rfl

theorem Step.same_refl {step : Step} (own : step.Keyed) : step.same step = true := by
  cases step with
  | mapKey key => exact Value.same_refl own
  | _ => simp [same]

namespace Location

/-- Whether a location leads to a slot or to one below it. -/
def covers : Location → Location → Bool
  | [], _ => true
  | step :: rest, other :: more => step.same other && covers rest more
  | _ :: _, [] => false

def Keyed (location : Location) : Prop := ∀ step ∈ location, step.Keyed

/-- An earlier position of the sequence in which a location ends. -/
inductive Pads : Location → Location → Prop where
  | here {i j : Nat} (earlier : i < j) : Pads [.index j] [.index i]
  | deeper {step other : Step} {rest more : Location} (same : step.same other = true)
    (pads : Pads rest more) : Pads (step :: rest) (other :: more)

theorem keyed_cons {step : Step} {rest : Location} :
    Keyed (step :: rest) ↔ step.Keyed ∧ Keyed rest := List.forall_mem_cons

end Location

namespace Value

variable {slot child new : Slot} {step other : Step} {known : Option Ty}

/-! ### One step -/

theorem getElem?_putItem (items : List Slot) (i : Nat) (new : Slot) (j : Nat) :
    (putItem items i new)[j]? = if i = j then some new
      else if j < items.length then items[j]?
      else if j < i then some none else none := by
  unfold putItem
  by_cases inside : i < items.length
  · by_cases hit : i = j
    · simp [inside, ← hit]
    · by_cases within : j < items.length
      · simp [inside, hit, within]
      · have beyond : ¬ j < i := by omega
        simp [inside, hit, within, beyond]
  · simp only [inside, ↓reduceIte, List.append_assoc]
    by_cases within : j < items.length
    · have apart : i ≠ j := by omega
      rw [List.getElem?_append_left within]
      simp [within, apart]
    · rw [List.getElem?_append_right (by omega)]
      by_cases gap : j < i
      · have apart : i ≠ j := by omega
        rw [List.getElem?_append_left (by simp; omega)]
        have filled : j - items.length < i - items.length := by omega
        simp [within, gap, apart, filled]
      · rw [List.getElem?_append_right (by simp; omega)]
        by_cases hit : i = j
        · simp [← hit]
        · have past : j - items.length - (i - items.length) ≠ 0 := by omega
          simp [within, gap, hit, past]

/-- Beside the position that is set, a sequence reads as before. What is new there is an empty slot
before that position, which lay past the end. -/
theorem getElem?_putItem_apart {items : List Slot} {i j : Nat} (apart : i ≠ j) :
    (putItem items i new)[j]? = some child ↔
      items[j]? = some child ∨ child = none ∧ items.length ≤ j ∧ j < i := by
  rw [getElem?_putItem, if_neg apart]
  by_cases within : j < items.length
  · have inside : ¬ items.length ≤ j := by omega
    simp [within, inside]
  · rw [if_neg within, List.getElem?_eq_none (Nat.le_of_not_lt within)]
    constructor
    · intro found
      split at found
      · rename_i gap
        cases found
        exact .inr ⟨rfl, Nat.le_of_not_lt within, gap⟩
      · cases found
    · rintro (impossible | ⟨rfl, -, gap⟩)
      · cases impossible
      · rw [if_pos gap]

theorem at?_list {element : Option Ty} {items : List Slot} {i : Nat} :
    at? [.index i] (some (.list element items)) = .ok child ↔ items[i]? = some child := by
  simp only [at?]
  cases items[i]? <;> simp

theorem at?_iterator {element : Option Ty} {items : List Slot} {i : Nat} :
    at? [.index i] (some (.iterator element items)) = .ok child ↔ items[i]? = some child := by
  simp only [at?]
  cases items[i]? <;> simp

theorem at?_map {keyTy valueTy : Option Ty} {pairs : List (Value × Slot)} {key : Value} :
    at? [.mapKey key] (some (.map keyTy valueTy pairs)) = .ok child ↔
      lookup pairs key = some child := by
  simp only [at?]
  cases lookup pairs key <;> simp

/-- Steps to one slot read the same there. -/
theorem at?_of_same (keyed : SlotKeyed slot) (own : step.Keyed) (others : other.Keyed)
    (same : step.same other = true) : at? [other] slot = .ok child ↔ at? [step] slot = .ok child := by
  cases slot with
  | none => cases step <;> cases other <;> simp [at?]
  | some v =>
    cases step with
    | mapKey key =>
      cases other with
      | mapKey otherKey =>
        cases v with
        | map keyTy valueTy pairs =>
          have found := lookup_congr (keyed_map_iff.mp (keyed _ rfl)) own others same
          rw [at?_map, at?_map, found]
        | _ => simp [at?]
      | _ => simp [Step.same] at same
    | index i =>
      cases other with
      | index j =>
        have equal : i = j := by simpa [Step.same] using same
        rw [equal]
      | _ => simp [Step.same] at same
    | _ =>
      cases other with
      | entryKey | entryValue => first | rfl | simp [Step.same] at same
      | _ => simp [Step.same] at same

/-- A step names a child that a container may have. -/
inductive Suits : Step → Value → Prop where
  | list {element : Option Ty} {items : List Slot} {i : Nat} : Suits (.index i) (.list element items)
  | iterator {element : Option Ty} {items : List Slot} {i : Nat} :
    Suits (.index i) (.iterator element items)
  | map {keyTy valueTy : Option Ty} {pairs : List (Value × Slot)} {key : Value} :
    Suits (.mapKey key) (.map keyTy valueTy pairs)
  | entryKey {keyTy valueTy : Option Ty} {key value : Slot} :
    Suits .entryKey (.entry keyTy valueTy key value)
  | entryValue {keyTy valueTy : Option Ty} {key value : Slot} :
    Suits .entryValue (.entry keyTy valueTy key value)

theorem suits_of_childTy? (declared : childTy? step slot = .ok known) :
    ∃ v, slot = some v ∧ Suits step v := by
  cases slot with
  | none => simp [childTy?] at declared
  | some v =>
    refine ⟨v, rfl, ?_⟩
    cases v with
    | list | iterator | map | entry =>
      cases step <;> first | constructor | simp [childTy?] at declared
    | _ => cases step <;> simp [childTy?] at declared

section Written
variable {v : Value} (keyed : v.Keyed) (own : step.Keyed) (others : other.Keyed)
  (suits : Suits step v)
include keyed own others suits

/-- A child that is set reads back, by whichever step leads to it. -/
theorem at?_putChild_same (same : step.same other = true) :
    at? [other] (putChild step new (some v)) = .ok new := by
  cases suits with
  | list =>
    cases other <;> simp [Step.same] at same
    rw [putChild, at?_list, getElem?_putItem, if_pos same]
  | iterator =>
    cases other <;> simp [Step.same] at same
    rw [putChild, at?_iterator, getElem?_putItem, if_pos same]
  | map =>
    cases other <;> simp [Step.same] at same
    rw [putChild, at?_map]
    exact lookup_insert_of_same (keyed_map_iff.mp keyed) own others same new
  | entryKey | entryValue => cases other <;> simp [Step.same, at?, putChild] at same ⊢

/-- Children beside it read as before. -/
theorem at?_putChild_of_apart (apart : step.same other = false)
    (read : at? [other] (some v) = .ok child) :
    at? [other] (putChild step new (some v)) = .ok child := by
  cases suits with
  | @list element items i =>
    cases other with
    | index j =>
      have distinct : i ≠ j := by simpa [Step.same] using apart
      rw [putChild, at?_list, getElem?_putItem_apart distinct]
      exact .inl (at?_list.mp read)
    | _ => exact read
  | @iterator element items i =>
    cases other with
    | index j =>
      have distinct : i ≠ j := by simpa [Step.same] using apart
      rw [putChild, at?_iterator, getElem?_putItem_apart distinct]
      exact .inl (at?_iterator.mp read)
    | _ => exact read
  | map =>
    cases other with
    | mapKey key =>
      rw [putChild, at?_map, lookup_insert_of_apart (keyed_map_iff.mp keyed) own others apart]
      exact at?_map.mp read
    | _ => exact read
  | entryKey | entryValue => cases other <;> first | exact read | simp [Step.same] at apart

/-- What reads beside it and did not before is an empty slot that fills the gap up to a child which
was not there either. -/
theorem at?_putChild_fresh (apart : step.same other = false)
    (read : at? [other] (putChild step new (some v)) = .ok child) :
    at? [other] (some v) = .ok child ∨ child = none ∧ (∀ old, at? [step] (some v) ≠ .ok old) ∧
      Location.Pads [step] [other] := by
  cases suits with
  | @list element items i =>
    cases other with
    | index j =>
      have distinct : i ≠ j := by simpa [Step.same] using apart
      rw [putChild, at?_list, getElem?_putItem_apart distinct] at read
      rcases read with kept | ⟨empty, past, gap⟩
      · exact .inl (at?_list.mpr kept)
      · refine .inr ⟨empty, fun old found => ?_, .here gap⟩
        have inside := (List.getElem?_eq_some_iff.mp (at?_list.mp found)).1
        omega
    | _ => exact .inl read
  | @iterator element items i =>
    cases other with
    | index j =>
      have distinct : i ≠ j := by simpa [Step.same] using apart
      rw [putChild, at?_iterator, getElem?_putItem_apart distinct] at read
      rcases read with kept | ⟨empty, past, gap⟩
      · exact .inl (at?_iterator.mpr kept)
      · refine .inr ⟨empty, fun old found => ?_, .here gap⟩
        have inside := (List.getElem?_eq_some_iff.mp (at?_iterator.mp found)).1
        omega
    | _ => exact .inl read
  | map =>
    cases other with
    | mapKey key =>
      rw [putChild, at?_map, lookup_insert_of_apart (keyed_map_iff.mp keyed) own others apart] at read
      exact .inl (at?_map.mpr read)
    | _ => exact .inl read
  | entryKey | entryValue => cases other <;> first | exact .inl read | simp [Step.same] at apart

end Written

theorem keyed_putChild {v : Value} (keyed : v.Keyed) (own : step.Keyed) (value : SlotKeyed new)
    (suits : Suits step v) : SlotKeyed (putChild step new (some v)) := by
  have put {items : List Slot} (i : Nat) (contents : ∀ slot ∈ items, SlotKeyed slot) :
      ∀ slot ∈ putItem items i new, SlotKeyed slot := by
    intro slot member
    rcases mem_putItem member with old | rfl | rfl
    · exact contents slot old
    · exact slotKeyed_none
    · exact value
  cases suits with
  | list => exact slotKeyed_some (keyed_list_iff.mpr (put _ (keyed_list_iff.mp keyed)))
  | iterator => exact slotKeyed_some (keyed_iterator_iff.mpr (put _ (keyed_iterator_iff.mp keyed)))
  | map =>
    exact slotKeyed_some (keyed_map_iff.mpr ((keyed_map_iff.mp keyed).insert own value))
  | entryKey =>
    exact slotKeyed_some (keyed_entry_iff.mpr ⟨value, (keyed_entry_iff.mp keyed).2⟩)
  | entryValue =>
    exact slotKeyed_some (keyed_entry_iff.mpr ⟨(keyed_entry_iff.mp keyed).1, value⟩)

/-! ### Whole locations -/

/-- A slot can be written at a location: the way there exists, and its last step names a child that
the container there may have. -/
inductive Writable : Location → Slot → Prop where
  | whole {slot : Slot} : Writable [] slot
  | last {step : Step} {slot : Slot} {known : Option Ty} (declared : childTy? step slot = .ok known) :
    Writable [step] slot
  | onward {step : Step} {rest : Location} {slot child : Slot}
    (there : at? [step] slot = .ok child) (writable : Writable rest child) :
    Writable (step :: rest) slot

theorem putAt_last (step : Step) (new slot : Slot) : putAt [step] new slot = putChild step new slot := by
  simp only [putAt]
  cases at? [step] slot <;> rfl

theorem putAt_onward {rest : Location} (there : at? [step] slot = .ok child) :
    putAt (step :: rest) new slot = putChild step (putAt rest new child) slot := by
  simp only [putAt, there]

theorem suits_of_at? (there : at? [step] slot = .ok child) : ∃ v, slot = some v ∧ Suits step v := by
  obtain ⟨known, declared⟩ := childTy?_of_at? there
  exact suits_of_childTy? declared

section Put
variable {location : Location} {root new : Slot} (writable : Writable location root)
  (keyed : SlotKeyed root) (own : location.Keyed)
include writable keyed own

theorem keyed_putAt (value : SlotKeyed new) : SlotKeyed (putAt location new root) := by
  induction writable with
  | whole => exact value
  | @last step slot known declared =>
    obtain ⟨v, rfl, suits⟩ := suits_of_childTy? declared
    have stepKeyed := (Location.keyed_cons.mp own).1
    rw [putAt_last]
    exact keyed_putChild (keyed v rfl) stepKeyed value suits
  | @onward step rest slot child there writable ih =>
    obtain ⟨v, rfl, suits⟩ := suits_of_at? there
    obtain ⟨stepKeyed, restKeyed⟩ := Location.keyed_cons.mp own
    rw [putAt_onward there]
    exact keyed_putChild (keyed v rfl) stepKeyed (ih (keyed_at? keyed there) restKeyed) suits

/-- A slot that is written reads back, and what is below it with it. -/
theorem at?_putAt_of_covers {other : Location} (others : other.Keyed)
    (covered : location.covers other = true) :
    at? other (putAt location new root) = at? (other.drop location.length) new := by
  induction writable generalizing other with
  | whole => rfl
  | @last step slot known declared =>
    cases other with
    | nil => simp [Location.covers] at covered
    | cons first more =>
      obtain ⟨v, rfl, suits⟩ := suits_of_childTy? declared
      have stepKeyed := (Location.keyed_cons.mp own).1
      have firstKeyed := (Location.keyed_cons.mp others).1
      have same : step.same first = true := by simpa [Location.covers] using covered
      rw [putAt_last, at?_cons, at?_putChild_same (keyed v rfl) stepKeyed firstKeyed suits same]
      rfl
  | @onward step rest slot child there writable ih =>
    cases other with
    | nil => simp [Location.covers] at covered
    | cons first more =>
      obtain ⟨v, rfl, suits⟩ := suits_of_at? there
      obtain ⟨stepKeyed, restKeyed⟩ := Location.keyed_cons.mp own
      obtain ⟨firstKeyed, moreKeyed⟩ := Location.keyed_cons.mp others
      obtain ⟨same, below⟩ : step.same first = true ∧ rest.covers more = true := by
        simpa [Location.covers] using covered
      rw [putAt_onward there, at?_cons,
        at?_putChild_same (keyed v rfl) stepKeyed firstKeyed suits same, ok_bind]
      exact ih (keyed_at? keyed there) restKeyed moreKeyed below

/-- What lies beside a location that is written reads as before. -/
theorem at?_putAt_of_apart {other : Location} (others : other.Keyed)
    (notBelow : location.covers other = false) (notAbove : other.covers location = false)
    (read : at? other root = .ok child) : at? other (putAt location new root) = .ok child := by
  induction writable generalizing other with
  | whole => simp [Location.covers] at notBelow
  | @last step slot known declared =>
    cases other with
    | nil => simp [Location.covers] at notAbove
    | cons first more =>
      obtain ⟨v, rfl, suits⟩ := suits_of_childTy? declared
      have stepKeyed := (Location.keyed_cons.mp own).1
      have firstKeyed := (Location.keyed_cons.mp others).1
      have apart : step.same first = false := by simpa [Location.covers] using notBelow
      rw [at?_cons] at read ⊢
      obtain ⟨middle, reached, below⟩ := bind_eq_ok.mp read
      rw [putAt_last, at?_putChild_of_apart (keyed v rfl) stepKeyed firstKeyed suits apart reached]
      exact below
  | @onward step rest slot next there writable ih =>
    cases other with
    | nil => simp [Location.covers] at notAbove
    | cons first more =>
      obtain ⟨v, rfl, suits⟩ := suits_of_at? there
      obtain ⟨stepKeyed, restKeyed⟩ := Location.keyed_cons.mp own
      obtain ⟨firstKeyed, moreKeyed⟩ := Location.keyed_cons.mp others
      rw [at?_cons] at read ⊢
      obtain ⟨middle, reached, below⟩ := bind_eq_ok.mp read
      rw [putAt_onward there]
      by_cases same : step.same first = true
      · have met := (at?_of_same keyed stepKeyed firstKeyed same).mp reached
        cases met.symm.trans there
        have mirrored : first.same step = true := (Step.same_comm firstKeyed stepKeyed).trans same
        rw [at?_putChild_same (keyed v rfl) stepKeyed firstKeyed suits same]
        refine ih (keyed_at? keyed there) restKeyed moreKeyed ?_ ?_ below
        · simpa [Location.covers, same] using notBelow
        · simpa [Location.covers, mirrored] using notAbove
      · have apart : step.same first = false := eq_false_of_ne_true same
        rw [at?_putChild_of_apart (keyed v rfl) stepKeyed firstKeyed suits apart reached]
        exact below

/-- A write takes nothing away that is no deeper than it, and containers above it keep what they
declare. -/
theorem at?_putAt_forward {other : Location} (others : other.Keyed)
    (short : other.length ≤ location.length) (read : at? other root = .ok child) :
    ∃ child', at? other (putAt location new root) = .ok child' ∧
      (other.length < location.length → shell child' = shell child) := by
  induction writable generalizing other with
  | whole =>
    cases List.eq_nil_of_length_eq_zero (Nat.le_zero.mp short)
    exact ⟨new, rfl, fun impossible => absurd impossible (Nat.lt_irrefl _)⟩
  | @last step slot known declared =>
    rw [putAt_last]
    cases other with
    | nil =>
      cases read
      exact ⟨_, rfl, fun _ => shell_putChild ..⟩
    | cons first more =>
      cases List.eq_nil_of_length_eq_zero (Nat.le_zero.mp (Nat.le_of_succ_le_succ short))
      obtain ⟨v, rfl, suits⟩ := suits_of_childTy? declared
      have stepKeyed := (Location.keyed_cons.mp own).1
      have firstKeyed := (Location.keyed_cons.mp others).1
      refine ⟨if step.same first then new else child, ?_, fun deep => absurd deep (Nat.lt_irrefl _)⟩
      by_cases same : step.same first = true
      · rw [at?_putChild_same (keyed v rfl) stepKeyed firstKeyed suits same, if_pos same]
      · have apart := eq_false_of_ne_true same
        rw [at?_putChild_of_apart (keyed v rfl) stepKeyed firstKeyed suits apart read, if_neg same]
  | @onward step rest slot next there writable ih =>
    rw [putAt_onward there]
    cases other with
    | nil =>
      cases read
      exact ⟨_, rfl, fun _ => shell_putChild ..⟩
    | cons first more =>
      obtain ⟨v, rfl, suits⟩ := suits_of_at? there
      obtain ⟨stepKeyed, restKeyed⟩ := Location.keyed_cons.mp own
      obtain ⟨firstKeyed, moreKeyed⟩ := Location.keyed_cons.mp others
      rw [at?_cons] at read ⊢
      obtain ⟨middle, reached, below⟩ := bind_eq_ok.mp read
      by_cases same : step.same first = true
      · cases ((at?_of_same keyed stepKeyed firstKeyed same).mp reached).symm.trans there
        rw [at?_putChild_same (keyed v rfl) stepKeyed firstKeyed suits same, ok_bind]
        obtain ⟨child', kept, alike⟩ :=
          ih (keyed_at? keyed there) restKeyed moreKeyed (Nat.le_of_succ_le_succ short) below
        exact ⟨child', kept, fun deep => alike (Nat.lt_of_succ_lt_succ deep)⟩
      · have apart := eq_false_of_ne_true same
        rw [at?_putChild_of_apart (keyed v rfl) stepKeyed firstKeyed suits apart reached]
        exact ⟨child, below, fun _ => rfl⟩

/-- What reads after a write and did not before is at the location that was written or below it, or
is an empty slot that fills a gap before it. -/
theorem at?_putAt_fresh {other : Location} (others : other.Keyed)
    (read : at? other (putAt location new root) = .ok child) :
    (∃ old, at? other root = .ok old) ∨ location.covers other = true ∨
      child = none ∧ location.Pads other := by
  induction writable generalizing other with
  | whole => exact .inr (.inl rfl)
  | @last step slot known declared =>
    cases other with
    | nil => exact .inl ⟨slot, rfl⟩
    | cons first more =>
      obtain ⟨v, rfl, suits⟩ := suits_of_childTy? declared
      have stepKeyed := (Location.keyed_cons.mp own).1
      have firstKeyed := (Location.keyed_cons.mp others).1
      by_cases same : step.same first = true
      · exact .inr (.inl (by simp [Location.covers, same]))
      · have apart : step.same first = false := eq_false_of_ne_true same
        rw [putAt_last, at?_cons] at read
        obtain ⟨middle, reached, below⟩ := bind_eq_ok.mp read
        rcases at?_putChild_fresh (keyed v rfl) stepKeyed firstKeyed suits apart reached with
          kept | ⟨rfl, -, pads⟩
        · refine .inl ⟨child, ?_⟩
          rw [at?_cons, kept]
          exact below
        · cases more with
          | nil =>
            cases below
            exact .inr (.inr ⟨rfl, pads⟩)
          | cons => cases below
  | @onward step rest slot next there writable ih =>
    cases other with
    | nil => exact .inl ⟨slot, rfl⟩
    | cons first more =>
      obtain ⟨v, rfl, suits⟩ := suits_of_at? there
      obtain ⟨stepKeyed, restKeyed⟩ := Location.keyed_cons.mp own
      obtain ⟨firstKeyed, moreKeyed⟩ := Location.keyed_cons.mp others
      rw [putAt_onward there, at?_cons] at read
      obtain ⟨middle, reached, below⟩ := bind_eq_ok.mp read
      by_cases same : step.same first = true
      · rw [at?_putChild_same (keyed v rfl) stepKeyed firstKeyed suits same] at reached
        cases reached
        rcases ih (keyed_at? keyed there) restKeyed moreKeyed below with ⟨old, found⟩ | covered | padded
        · refine .inl ⟨old, ?_⟩
          rw [at?_cons, (at?_of_same keyed stepKeyed firstKeyed same).mpr there]
          exact found
        · exact .inr (.inl (by simp [Location.covers, same, covered]))
        · exact .inr (.inr ⟨padded.1, .deeper same padded.2⟩)
      · have apart : step.same first = false := eq_false_of_ne_true same
        rcases at?_putChild_fresh (keyed v rfl) stepKeyed firstKeyed suits apart reached with
          kept | ⟨-, absent, -⟩
        · refine .inl ⟨child, ?_⟩
          rw [at?_cons, kept]
          exact below
        · exact absurd there (absent next)

end Put

end Value
end Immediate
