import Mathlib.Data.List.Forall2
import Immediate.Proofs.Contents
/-! Sameness is the equality by which maps find their keys. The target is that it is an equivalence
on values whose maps keep their keys apart, whatever child types they declare and in whatever order
their pairs stand. The laws of lookup, insertion and removal follow from it. -/
namespace Immediate.Value

/-- No two keys among the pairs are the same. -/
def KeysApart (pairs : List (Value × Slot)) : Prop :=
  pairs.Pairwise fun first second => same first.1 second.1 = false

/-- Every map in a value, at any depth, keeps its keys apart. -/
inductive Keyed : Value → Prop where
  | integer (width : Width) (n : BitVec width.bits) : Keyed (.integer width n)
  | float (x : Binary32) : Keyed (.float x)
  | double (x : Binary64) : Keyed (.double x)
  | string (s : String) : Keyed (.string s)
  | entity (e : EntityId) : Keyed (.entity e)
  | position (p : Position) : Keyed (.position p)
  | list {element : Option Ty} {items : List Slot}
      (contents : ∀ slot ∈ items, ∀ v ∈ slot, Keyed v) : Keyed (.list element items)
  | iterator {element : Option Ty} {items : List Slot}
      (contents : ∀ slot ∈ items, ∀ v ∈ slot, Keyed v) : Keyed (.iterator element items)
  | map {keyTy valueTy : Option Ty} {pairs : List (Value × Slot)} (apart : KeysApart pairs)
      (keys : ∀ pair ∈ pairs, Keyed pair.1)
      (values : ∀ pair ∈ pairs, ∀ v ∈ pair.2, Keyed v) : Keyed (.map keyTy valueTy pairs)
  | entry {keyTy valueTy : Option Ty} {key value : Slot} (keyHalf : ∀ v ∈ key, Keyed v)
      (valueHalf : ∀ v ∈ value, Keyed v) : Keyed (.entry keyTy valueTy key value)

/-- The same for what a slot holds. -/
def SlotKeyed (slot : Slot) : Prop := ∀ v ∈ slot, v.Keyed

/-- The same for the keys and values of a map, which are also apart. -/
structure PairsKeyed (pairs : List (Value × Slot)) : Prop where
  apart : KeysApart pairs
  keys : ∀ pair ∈ pairs, pair.1.Keyed
  values : ∀ pair ∈ pairs, SlotKeyed pair.2

theorem keyed_map_iff {keyTy valueTy : Option Ty} {pairs : List (Value × Slot)} :
    Keyed (.map keyTy valueTy pairs) ↔ PairsKeyed pairs := by
  constructor
  · rintro ⟨⟩
    exact ⟨‹_›, ‹_›, ‹_›⟩
  · rintro ⟨apart, keys, values⟩
    exact .map apart keys values

theorem keyed_list_iff {element : Option Ty} {items : List Slot} :
    Keyed (.list element items) ↔ ∀ slot ∈ items, SlotKeyed slot :=
  ⟨fun | .list contents => contents, .list⟩

theorem keyed_iterator_iff {element : Option Ty} {items : List Slot} :
    Keyed (.iterator element items) ↔ ∀ slot ∈ items, SlotKeyed slot :=
  ⟨fun | .iterator contents => contents, .iterator⟩

theorem keyed_entry_iff {keyTy valueTy : Option Ty} {key value : Slot} :
    Keyed (.entry keyTy valueTy key value) ↔ SlotKeyed key ∧ SlotKeyed value :=
  ⟨fun | .entry keyHalf valueHalf => ⟨keyHalf, valueHalf⟩, fun ⟨key, value⟩ => .entry key value⟩

/-! ### Keeping keys apart is decidable -/

instance (pairs : List (Value × Slot)) : Decidable (KeysApart pairs) :=
  inferInstanceAs (Decidable (pairs.Pairwise _))

mutual

/-- Whether every map in a value keeps its keys apart. -/
def isKeyed : Value → Bool
  | .list _ items | .iterator _ items => areKeyed items
  | .map _ _ pairs => decide (KeysApart pairs) && arePairsKeyed pairs
  | .entry _ _ key value => isSlotKeyed key && isSlotKeyed value
  | _ => true

/-- The same for a slot. -/
def isSlotKeyed : Option Value → Bool
  | none => true
  | some v => v.isKeyed

/-- The same for the slots of a sequence. -/
def areKeyed : List (Option Value) → Bool
  | [] => true
  | item :: rest => isSlotKeyed item && areKeyed rest

/-- The same inside the keys and values of a map. -/
def arePairsKeyed : List (Value × Option Value) → Bool
  | [] => true
  | (key, value) :: rest => key.isKeyed && isSlotKeyed value && arePairsKeyed rest

end

private theorem isSlotKeyed_iff {slot : Slot} (held : ∀ v ∈ slot, v.isKeyed = true ↔ v.Keyed) :
    isSlotKeyed slot = true ↔ SlotKeyed slot := by
  cases slot with
  | none => exact ⟨fun _ => nofun, fun _ => rfl⟩
  | some v =>
    refine (held v rfl).trans ⟨fun keyed w member => ?_, fun keyed => keyed v rfl⟩
    cases member
    exact keyed

private theorem areKeyed_iff {items : List Slot}
    (held : ∀ slot ∈ items, ∀ v ∈ slot, v.isKeyed = true ↔ v.Keyed) :
    areKeyed items = true ↔ ∀ slot ∈ items, SlotKeyed slot := by
  induction items with
  | nil => exact ⟨fun _ => nofun, fun _ => rfl⟩
  | cons item rest ih =>
    have head := isSlotKeyed_iff (held item List.mem_cons_self)
    have tail := ih fun slot member => held slot (List.mem_cons_of_mem _ member)
    simp only [areKeyed, Bool.and_eq_true, head, tail, List.forall_mem_cons]

private theorem arePairsKeyed_iff {pairs : List (Value × Slot)}
    (keys : ∀ pair ∈ pairs, pair.1.isKeyed = true ↔ pair.1.Keyed)
    (values : ∀ pair ∈ pairs, ∀ v ∈ pair.2, v.isKeyed = true ↔ v.Keyed) :
    arePairsKeyed pairs = true ↔
      (∀ pair ∈ pairs, pair.1.Keyed) ∧ ∀ pair ∈ pairs, SlotKeyed pair.2 := by
  induction pairs with
  | nil => exact ⟨fun _ => ⟨nofun, nofun⟩, fun _ => rfl⟩
  | cons pair rest ih =>
    obtain ⟨key, slot⟩ := pair
    have head : key.isKeyed = true ↔ key.Keyed := keys (key, slot) List.mem_cons_self
    have half := isSlotKeyed_iff (values (key, slot) List.mem_cons_self)
    have tail := ih (fun pair member => keys pair (List.mem_cons_of_mem _ member))
      (fun pair member => values pair (List.mem_cons_of_mem _ member))
    simp only [arePairsKeyed, Bool.and_eq_true, head, half, tail, List.forall_mem_cons]
    exact and_and_and_comm

theorem isKeyed_iff {v : Value} : v.isKeyed = true ↔ v.Keyed := by
  induction v with
  | integer => exact ⟨fun _ => .integer .., fun _ => rfl⟩
  | float => exact ⟨fun _ => .float _, fun _ => rfl⟩
  | double => exact ⟨fun _ => .double _, fun _ => rfl⟩
  | string => exact ⟨fun _ => .string _, fun _ => rfl⟩
  | entity => exact ⟨fun _ => .entity _, fun _ => rfl⟩
  | position => exact ⟨fun _ => .position _, fun _ => rfl⟩
  | list element items ih => rw [keyed_list_iff, isKeyed, areKeyed_iff ih]
  | iterator element items ih => rw [keyed_iterator_iff, isKeyed, areKeyed_iff ih]
  | map keyTy valueTy pairs keys values =>
    rw [keyed_map_iff, isKeyed, Bool.and_eq_true, decide_eq_true_eq, arePairsKeyed_iff keys values]
    exact ⟨fun ⟨apart, keys, values⟩ => ⟨apart, keys, values⟩,
      fun ⟨apart, keys, values⟩ => ⟨apart, keys, values⟩⟩
  | entry keyTy valueTy key value keyHeld valueHeld =>
    rw [keyed_entry_iff, isKeyed, Bool.and_eq_true, isSlotKeyed_iff keyHeld,
      isSlotKeyed_iff valueHeld]

instance (v : Value) : Decidable v.Keyed := decidable_of_iff _ isKeyed_iff

instance (slot : Slot) : Decidable (SlotKeyed slot) :=
  decidable_of_iff _ (isSlotKeyed_iff fun _ _ => isKeyed_iff)

/-! ### Contents in pairs -/

theorem sameItems_iff {items others : List Slot} :
    sameItems items others = true ↔ List.Forall₂ (fun a b => sameSlot a b = true) items others := by
  induction items generalizing others with
  | nil => cases others <;> simp [sameItems]
  | cons item rest ih => cases others <;> simp [sameItems, ih]

/-! ### Finding pairs -/

/-- The pair a key finds has that key. -/
theorem same_of_find {pairs : List (Value × Slot)} {key : Value} {pair : Value × Slot}
    (found : pairs.find? (fun other => same key other.1) = some pair) :
    same key pair.1 = true := by
  have held := List.find?_some found
  exact held

/-- Every pair of one map is found in the other under its key. -/
theorem pairsWithin_iff {pairs others : List (Value × Slot)} :
    pairsWithin pairs others = true ↔ ∀ pair ∈ pairs, ∃ found,
      others.find? (fun other => same pair.1 other.1) = some found ∧
        sameSlot pair.2 found.2 = true := by
  induction pairs with
  | nil => simp [pairsWithin]
  | cons pair rest ih =>
    obtain ⟨key, slot⟩ := pair
    simp only [pairsWithin, Bool.and_eq_true, ih, List.mem_cons, forall_eq_or_imp]
    refine and_congr_left fun _ => ?_
    cases others.find? fun other => same key other.1 <;> simp

/-! ### An equivalence -/

/-- What the equivalence needs of a value: it is the same as itself, and what is the same as it is
the same as nothing else. -/
private structure Steady (v : Value) : Prop where
  own : same v v = true
  congr : ∀ {b c : Value}, b.Keyed → c.Keyed → same v b = true → same b c = same v c

private theorem Steady.mirror {v w : Value} (steady : Steady v) (keyed : v.Keyed)
    (other : w.Keyed) (held : same v w = true) : same w v = true := by
  rw [steady.congr other keyed held]
  exact steady.own

private theorem sameSlot_own {slot : Slot} (steady : ∀ v ∈ slot, Steady v) :
    sameSlot slot slot = true := by
  cases slot with
  | none => rfl
  | some v => exact (steady v rfl).own

private theorem sameSlot_congr {a b c : Slot} (steady : ∀ v ∈ a, Steady v) (second : SlotKeyed b)
    (third : SlotKeyed c) (held : sameSlot a b = true) : sameSlot b c = sameSlot a c := by
  cases a with
  | none =>
    cases b with
    | none => rfl
    | some w => cases held
  | some v =>
    cases b with
    | none => cases held
    | some w =>
      cases c with
      | none => rfl
      | some u => exact (steady v rfl).congr (second w rfl) (third u rfl) held

private theorem sameItems_own {items : List Slot}
    (steady : ∀ slot ∈ items, ∀ v ∈ slot, Steady v) :
    sameItems items items = true := by
  induction items with
  | nil => rfl
  | cons slot rest ih =>
    have head : sameSlot slot slot = true := sameSlot_own (steady slot List.mem_cons_self)
    have tail := ih fun slot member => steady slot (List.mem_cons_of_mem _ member)
    simp only [sameItems, head, tail, Bool.and_self]

private theorem sameItems_congr {a b : List Slot} (c : List Slot)
    (steady : ∀ slot ∈ a, ∀ v ∈ slot, Steady v) (second : ∀ slot ∈ b, SlotKeyed slot) (third : ∀ slot ∈ c, SlotKeyed slot)
    (held : sameItems a b = true) : sameItems b c = sameItems a c := by
  induction a generalizing b c with
  | nil =>
    cases b with
    | nil => rfl
    | cons => cases held
  | cons slot rest ih =>
    cases b with
    | nil => cases held
    | cons slot' rest' =>
      simp only [sameItems, Bool.and_eq_true] at held
      cases c with
      | nil => rfl
      | cons slot'' rest'' =>
        have head : sameSlot slot' slot'' = sameSlot slot slot'' :=
          sameSlot_congr (steady slot List.mem_cons_self) (second _ List.mem_cons_self)
            (third _ List.mem_cons_self) held.1
        have tail := ih rest'' (fun slot member => steady slot (List.mem_cons_of_mem _ member))
          (fun slot member => second slot (List.mem_cons_of_mem _ member))
          (fun slot member => third slot (List.mem_cons_of_mem _ member)) held.2
        simp only [sameItems, head, tail]

/-- Among keys that are apart, a steady key finds its own pair. -/
private theorem find_own {pairs : List (Value × Slot)} (keyed : PairsKeyed pairs)
    {pair : Value × Slot} (member : pair ∈ pairs) (steady : Steady pair.1) :
    pairs.find? (fun other => same pair.1 other.1) = some pair := by
  obtain ⟨before, after, rfl⟩ := List.append_of_mem member
  have apart := (List.pairwise_append.mp keyed.apart).2.2
  have unfound : before.find? (fun other => same pair.1 other.1) = none := by
    rw [List.find?_eq_none]
    intro other inside found
    have mirrored := steady.mirror (keyed.keys _ member)
      (keyed.keys _ (List.mem_append_left _ inside)) found
    simp [apart other inside pair List.mem_cons_self] at mirrored
  rw [List.find?_append, unfound, Option.none_or, List.find?_cons, steady.own]

/-- A key finds what a key that is the same as it finds. -/
private theorem find_congr {pairs : List (Value × Slot)} (keys : ∀ pair ∈ pairs, pair.1.Keyed)
    {key other : Value} (steady : Steady key) (keyed : other.Keyed) (held : same key other = true) :
    pairs.find? (fun pair => same other pair.1) = pairs.find? (fun pair => same key pair.1) := by
  induction pairs with
  | nil => rfl
  | cons head rest ih =>
    have tail := ih fun pair member => keys pair (List.mem_cons_of_mem _ member)
    have first := steady.congr keyed (keys head List.mem_cons_self) held
    simp only [List.find?_cons, first, tail]

/-- Of two sequences that stand beside each other, each thing of the first has a partner. -/
theorem exists_beside {α β : Type} {R : α → β → Prop} {things : List α} {partners : List β}
    (beside : List.Forall₂ R things partners) : ∀ x ∈ things, ∃ z ∈ partners, R x z := by
  induction beside with
  | nil => exact nofun
  | cons head _ ih =>
    refine List.forall_mem_cons.mpr ⟨⟨_, List.mem_cons_self, head⟩, fun x member => ?_⟩
    obtain ⟨z, inside, held⟩ := ih x member
    exact ⟨z, List.mem_cons_of_mem _ inside, held⟩

/-- If each of some things has a partner, no two of them share one, and the partners are no more
than the things, the partners can be reordered so that each stands beside its own. -/
theorem exists_perm_beside {α β : Type} {R : α → β → Prop} {things : List α} {partners : List β}
    (alone : things.Pairwise fun x y => ∀ z ∈ partners, R x z → ¬R y z)
    (paired : ∀ x ∈ things, ∃ z ∈ partners, R x z) (few : partners.length ≤ things.length) :
    ∃ reordered, reordered.Perm partners ∧ List.Forall₂ R things reordered := by
  induction things generalizing partners with
  | nil =>
    obtain rfl := List.eq_nil_of_length_eq_zero (Nat.le_zero.mp few)
    exact ⟨[], .nil, .nil⟩
  | cons x rest ih =>
    obtain ⟨headAlone, restAlone⟩ := List.pairwise_cons.mp alone
    obtain ⟨partner, member, held⟩ := paired x List.mem_cons_self
    obtain ⟨before, after, rfl⟩ := List.append_of_mem member
    have moved : (before ++ partner :: after).Perm (partner :: (before ++ after)) :=
      List.perm_middle
    have left : ∀ y ∈ rest, ∃ z ∈ before ++ after, R y z := by
      intro y inRest
      obtain ⟨z, inside, heldY⟩ := paired y (List.mem_cons_of_mem _ inRest)
      rcases List.mem_cons.mp (moved.mem_iff.mp inside) with rfl | others
      · exact absurd heldY (headAlone y inRest z inside held)
      · exact ⟨z, others, heldY⟩
    have fewer : (before ++ after).length ≤ rest.length :=
      Nat.le_of_succ_le_succ (Nat.le_trans (Nat.le_of_eq moved.length_eq.symm) few)
    have stillAlone := restAlone.imp fun apart z others =>
      apart z (moved.mem_iff.mpr (List.mem_cons_of_mem _ others))
    obtain ⟨reordered, perm, beside⟩ := ih stillAlone left fewer
    exact ⟨partner :: reordered, (perm.cons partner).trans moved.symm, .cons held beside⟩

private theorem same_map {keyTy valueTy keyTy' valueTy' : Option Ty}
    {pairs others : List (Value × Slot)} :
    same (.map keyTy valueTy pairs) (.map keyTy' valueTy' others) = true ↔
      pairs.length = others.length ∧ pairsWithin pairs others = true := by
  simp only [same, Bool.and_eq_true, decide_eq_true_eq]

section Maps
variable {a b c : List (Value × Slot)}

private theorem pairsWithin_own (keyed : PairsKeyed a) (keys : ∀ pair ∈ a, Steady pair.1)
    (values : ∀ pair ∈ a, ∀ v ∈ pair.2, Steady v) : pairsWithin a a = true := by
  rw [pairsWithin_iff]
  intro pair member
  exact ⟨pair, find_own keyed member (keys pair member), sameSlot_own (values pair member)⟩

private theorem pairsWithin_trans (second : PairsKeyed b) (third : PairsKeyed c)
    (keys : ∀ pair ∈ a, Steady pair.1) (values : ∀ pair ∈ a, ∀ v ∈ pair.2, Steady v)
    (left : pairsWithin a b = true) (right : pairsWithin b c = true) :
    pairsWithin a c = true := by
  rw [pairsWithin_iff] at left right ⊢
  intro pair member
  obtain ⟨middle, found, held⟩ := left pair member
  have inside := List.mem_of_find?_eq_some found
  have sameKey : same pair.1 middle.1 = true := same_of_find found
  obtain ⟨last, foundLast, heldLast⟩ := right middle inside
  refine ⟨last, ?_, ?_⟩
  · rw [← find_congr third.keys (keys pair member) (second.keys _ inside) sameKey]
    exact foundLast
  · rw [← sameSlot_congr (values pair member) (second.values _ inside)
      (third.values _ (List.mem_of_find?_eq_some foundLast)) held]
    exact heldLast

private theorem pairsWithin_euclid (first : PairsKeyed a) (second : PairsKeyed b)
    (third : PairsKeyed c) (keys : ∀ pair ∈ a, Steady pair.1)
    (values : ∀ pair ∈ a, ∀ v ∈ pair.2, Steady v) (few : b.length ≤ a.length)
    (left : pairsWithin a b = true) (right : pairsWithin a c = true) :
    pairsWithin b c = true := by
  rw [pairsWithin_iff] at left right ⊢
  -- A pair of `b` is found by some key of `a`: two keys of `a` cannot find one pair.
  obtain ⟨reordered, perm, beside⟩ : ∃ reordered, reordered.Perm b ∧
      List.Forall₂ (fun pair other => pair ∈ a ∧
        b.find? (fun q => same pair.1 q.1) = some other ∧ sameSlot pair.2 other.2 = true)
        a reordered := by
    refine exists_perm_beside ?alone ?paired few
    case alone =>
      refine first.apart.imp ?_
      rintro x y apart z - ⟨inX, foundX, -⟩ ⟨inY, foundY, -⟩
      have keyedZ := second.keys _ (List.mem_of_find?_eq_some foundX)
      have heldX : same x.1 z.1 = true := same_of_find foundX
      have heldY : same y.1 z.1 = true := same_of_find foundY
      have fromY := (keys y inY).mirror (first.keys _ inY) keyedZ heldY
      rw [(keys x inX).congr keyedZ (first.keys _ inY) heldX, apart] at fromY
      cases fromY
    case paired =>
      intro pair member
      obtain ⟨found, isFound, held⟩ := left pair member
      exact ⟨found, List.mem_of_find?_eq_some isFound, member, isFound, held⟩
  intro middle inside
  obtain ⟨pair, -, member, found, held⟩ :=
    exists_beside beside.flip middle (perm.mem_iff.mpr inside)
  have sameKey : same pair.1 middle.1 = true := same_of_find found
  obtain ⟨last, foundLast, heldLast⟩ := right pair member
  refine ⟨last, ?_, ?_⟩
  · rw [find_congr third.keys (keys pair member) (second.keys _ inside) sameKey]
    exact foundLast
  · rw [sameSlot_congr (values pair member) (second.values _ inside)
      (third.values _ (List.mem_of_find?_eq_some foundLast)) held]
    exact heldLast

end Maps

/-- Two values are the same only if they are of one kind. -/
theorem kind_eq_of_same {v w : Value} (held : same v w = true) : v.kind = w.kind := by
  cases v <;> cases w <;> simp_all [same, kind]

private theorem steady_map {keyTy valueTy : Option Ty} {pairs : List (Value × Slot)}
    (keyed : PairsKeyed pairs) (keys : ∀ pair ∈ pairs, Steady pair.1)
    (values : ∀ pair ∈ pairs, ∀ v ∈ pair.2, Steady v) : Steady (.map keyTy valueTy pairs) := by
  refine ⟨same_map.mpr ⟨rfl, pairsWithin_own keyed keys values⟩, ?_⟩
  intro b c keyedB keyedC held
  cases b with
  | map _ _ middle =>
    cases c with
    | map _ _ last =>
      rw [same_map] at held
      rw [keyed_map_iff] at keyedB keyedC
      rw [Bool.eq_iff_iff, same_map, same_map, held.1]
      refine and_congr_right fun _ => ⟨fun right => ?_, fun right => ?_⟩
      · exact pairsWithin_trans keyedB keyedC keys values held.2 right
      · exact pairsWithin_euclid keyed keyedB keyedC keys values (Nat.le_of_eq held.1.symm)
          held.2 right
    | _ => rfl
  | _ => cases held

private theorem steady_of_keyed {v : Value} (keyed : v.Keyed) : Steady v := by
  induction keyed with
  | integer width n =>
    refine ⟨by simp [same], fun {b c} _ _ held => ?_⟩
    cases b <;> cases c <;> simp_all [same]
  | float x | double x | string s | entity e | position p =>
    refine ⟨by simp [same], fun {b c} _ _ held => ?_⟩
    cases b <;> cases c <;> simp_all [same]
  | list contents ih =>
    refine ⟨sameItems_own ih, fun {b c} keyedB keyedC held => ?_⟩
    cases b with
    | list =>
      cases c with
      | list =>
        exact sameItems_congr _ ih (keyed_list_iff.mp keyedB) (keyed_list_iff.mp keyedC) held
      | _ => rfl
    | _ => cases held
  | iterator contents ih =>
    refine ⟨sameItems_own ih, fun {b c} keyedB keyedC held => ?_⟩
    cases b with
    | iterator =>
      cases c with
      | iterator =>
        exact sameItems_congr _ ih (keyed_iterator_iff.mp keyedB) (keyed_iterator_iff.mp keyedC) held
      | _ => rfl
    | _ => cases held
  | map apart keys values keyIH valueIH =>
    exact steady_map ⟨apart, keys, values⟩ keyIH valueIH
  | entry keyHalf valueHalf keyIH valueIH =>
    refine ⟨?_, fun {b c} keyedB keyedC held => ?_⟩
    · simp only [same, sameSlot_own keyIH, sameSlot_own valueIH, Bool.and_self]
    · cases b with
      | entry =>
        cases c with
        | entry =>
          rw [keyed_entry_iff] at keyedB keyedC
          simp only [same, Bool.and_eq_true] at held ⊢
          rw [sameSlot_congr keyIH keyedB.1 keyedC.1 held.1,
            sameSlot_congr valueIH keyedB.2 keyedC.2 held.2]
        | _ => rfl
      | _ => cases held

section Equivalence
variable {a b c : Value}

/-- Sameness is reflexive. -/
theorem same_refl (keyed : a.Keyed) : same a a = true := (steady_of_keyed keyed).own

/-- Values that are the same are the same as the same values. -/
theorem same_left_congr (first : a.Keyed) (second : b.Keyed) (third : c.Keyed)
    (held : same a b = true) : same b c = same a c :=
  (steady_of_keyed first).congr second third held

/-- Sameness is symmetric. -/
theorem same_comm (first : a.Keyed) (second : b.Keyed) : same a b = same b a := by
  rw [Bool.eq_iff_iff]
  exact ⟨(steady_of_keyed first).mirror first second, (steady_of_keyed second).mirror second first⟩

/-- Sameness is transitive. -/
theorem same_trans (first : a.Keyed) (second : b.Keyed) (third : c.Keyed)
    (left : same a b = true) (right : same b c = true) : same a c = true := by
  rw [← same_left_congr first second third left]
  exact right

/-- Sameness does not tell apart what is the same. -/
theorem same_congr {d : Value} (keyedA : a.Keyed) (keyedB : b.Keyed) (keyedC : c.Keyed)
    (keyedD : d.Keyed) (first : same a b = true) (second : same c d = true) :
    same b d = same a c :=
  calc same b d
    _ = same a d := same_left_congr keyedA keyedB keyedD first
    _ = same d a := same_comm keyedA keyedD
    _ = same c a := same_left_congr keyedC keyedD keyedA second
    _ = same a c := same_comm keyedC keyedA

/-- Keys that are the same find the same pair. -/
theorem find_of_same {pairs : List (Value × Slot)} (keys : ∀ pair ∈ pairs, pair.1.Keyed)
    (first : a.Keyed) (second : b.Keyed) (held : same a b = true) :
    pairs.find? (fun pair => same b pair.1) = pairs.find? (fun pair => same a pair.1) :=
  find_congr keys (steady_of_keyed first) second held

theorem sameSlot_refl {slot : Slot} (keyed : SlotKeyed slot) : sameSlot slot slot = true :=
  sameSlot_own fun v held => steady_of_keyed (keyed v held)

end Equivalence

/-! ### Insertion and lookup -/

theorem insert_of_absent {pairs : List (Value × Slot)} {key : Value} (slot : Slot)
    (absent : ∀ pair ∈ pairs, same key pair.1 = false) :
    insert pairs key slot = pairs ++ [(key, slot)] := by
  induction pairs with
  | nil => rfl
  | cons pair rest ih =>
    have tail := ih fun other member => absent other (List.mem_cons_of_mem _ member)
    simp only [insert, absent pair List.mem_cons_self, Bool.false_eq_true, ↓reduceIte, tail,
      List.cons_append]

/-- What is found under a key is the slot of a pair. -/
theorem exists_of_lookup {pairs : List (Value × Slot)} {key : Value} {slot : Slot}
    (found : lookup pairs key = some slot) :
    ∃ pair ∈ pairs, same key pair.1 = true ∧ pair.2 = slot := by
  obtain ⟨pair, isFound, equal⟩ := Option.map_eq_some_iff.mp found
  exact ⟨pair, List.mem_of_find?_eq_some isFound, same_of_find isFound, equal⟩

theorem lookup_cons (pair : Value × Slot) (rest : List (Value × Slot)) (key : Value) :
    lookup (pair :: rest) key = if same key pair.1 then some pair.2 else lookup rest key := by
  unfold lookup
  rw [List.find?_cons]
  cases same key pair.1 <;> rfl

/-- Among keys that are apart, every key finds its own slot. -/
theorem lookup_of_mem {pairs : List (Value × Slot)} (keyed : PairsKeyed pairs)
    {pair : Value × Slot} (member : pair ∈ pairs) : lookup pairs pair.1 = some pair.2 := by
  unfold lookup
  rw [find_own keyed member (steady_of_keyed (keyed.keys pair member)), Option.map_some]

theorem insert_of_lookup {pairs : List (Value × Slot)} {key : Value} {slot : Slot}
    (found : lookup pairs key = some slot) : insert pairs key slot = pairs := by
  induction pairs with
  | nil => cases found
  | cons head rest ih =>
    rw [lookup_cons] at found
    unfold insert
    split at found
    · rename_i here
      cases found
      rw [if_pos here]
    · rename_i apart
      rw [if_neg apart, ih found]

/-- Under a key that is present, another slot takes the place of the one there and nothing else
moves. -/
theorem lookup_insert_of_lookup {pairs : List (Value × Slot)} {key other : Value} {old : Slot}
    (found : lookup pairs key = some old) (new : Slot) :
    lookup (insert pairs key new) other = lookup pairs other ∨
      lookup pairs other = some old ∧ lookup (insert pairs key new) other = some new := by
  induction pairs with
  | nil => cases found
  | cons head rest ih =>
    rw [lookup_cons] at found
    unfold insert
    split at found
    · rename_i here
      cases found
      rw [if_pos here, lookup_cons, lookup_cons]
      by_cases hit : same other head.1 = true
      · exact .inr ⟨if_pos hit, if_pos hit⟩
      · exact .inl (by rw [if_neg hit, if_neg hit])
    · rename_i apart
      rw [if_neg apart, lookup_cons, lookup_cons]
      by_cases hit : same other head.1 = true
      · exact .inl (by rw [if_pos hit, if_pos hit])
      · rw [if_neg hit, if_neg hit]
        exact ih found

/-- The pairs after an insertion: all others, and the slot under the key, which is spelled as it was
if it was present. -/
theorem mem_insert {pairs : List (Value × Slot)} {key : Value} {slot : Slot}
    {pair : Value × Slot} (member : pair ∈ insert pairs key slot) :
    pair ∈ pairs ∨ pair.2 = slot ∧
      ((∃ other ∈ pairs, other.1 = pair.1) ∨ pair.1 = key ∧ lookup pairs key = none) := by
  induction pairs with
  | nil =>
    cases List.mem_singleton.mp member
    exact .inr ⟨rfl, .inr ⟨rfl, rfl⟩⟩
  | cons head rest ih =>
    unfold insert at member
    split at member
    · rcases List.mem_cons.mp member with rfl | inside
      · exact .inr ⟨rfl, .inl ⟨head, List.mem_cons_self, rfl⟩⟩
      · exact .inl (List.mem_cons_of_mem _ inside)
    · rename_i apart
      rcases List.mem_cons.mp member with rfl | inside
      · exact .inl List.mem_cons_self
      · rcases ih inside with inRest | ⟨equal, ⟨other, inRest, spelled⟩ | ⟨new, absent⟩⟩
        · exact .inl (List.mem_cons_of_mem _ inRest)
        · exact .inr ⟨equal, .inl ⟨other, List.mem_cons_of_mem _ inRest, spelled⟩⟩
        · refine .inr ⟨equal, .inr ⟨new, ?_⟩⟩
          rw [lookup_cons, if_neg apart, absent]

theorem erase_sublist (pairs : List (Value × Slot)) (key : Value) :
    (erase pairs key).Sublist pairs := by
  induction pairs with
  | nil => exact List.Sublist.refl _
  | cons head rest ih =>
    unfold erase
    split
    · exact List.sublist_cons_self ..
    · exact ih.cons_cons head

/-- Inserting pairs with new keys that are apart appends them. -/
theorem insertAll_of_apart {pairs more : List (Value × Slot)}
    (absent : ∀ pair ∈ pairs, ∀ other ∈ more, same other.1 pair.1 = false)
    (apart : more.Pairwise fun first second => same second.1 first.1 = false) :
    insertAll pairs more = pairs ++ more := by
  induction more generalizing pairs with
  | nil => exact (List.append_nil pairs).symm
  | cons other rest ih =>
    obtain ⟨headApart, restApart⟩ := List.pairwise_cons.mp apart
    have appended := insert_of_absent other.2 fun pair member =>
      absent pair member other List.mem_cons_self
    have restAbsent : ∀ pair ∈ pairs ++ [other], ∀ later ∈ rest, same later.1 pair.1 = false := by
      intro pair member later inside
      rcases List.mem_append.mp member with left | right
      · exact absent pair left later (List.mem_cons_of_mem _ inside)
      · rw [List.mem_singleton.mp right]
        exact headApart later inside
    have tail := ih restAbsent restApart
    simp only [insertAll, List.foldl_cons] at tail ⊢
    rw [appended, tail, List.append_assoc, List.singleton_append]

/-- Keys that are apart are so in both directions. -/
theorem PairsKeyed.apart_comm {pairs : List (Value × Slot)} (keyed : PairsKeyed pairs) :
    pairs.Pairwise fun first second => same second.1 first.1 = false :=
  keyed.apart.imp_of_mem fun {first second} inFirst inSecond held => by
    rw [same_comm (keyed.keys second inSecond) (keyed.keys first inFirst)]
    exact held

end Immediate.Value
