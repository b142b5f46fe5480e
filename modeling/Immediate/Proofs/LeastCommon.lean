import Immediate.Eval.Machine
import Immediate.Proofs.Casting
/-! Joint types do not depend on order. A type lowers to at most one other and never back to itself, so
chains that meet go on together, and the first common type of two is the least one: all others are
reached from it. The least common type of many does not say in which order they were joined. -/
namespace Immediate

open Outcome

namespace Ty

/-! ### Chains -/

/-- What holds of types that are not lowered, and of a type if it holds of the one it lowers to, holds
of all types. -/
theorem lowering_induction {motive : Ty → Prop} (lowest : ∀ t, t.lowered? = none → motive t)
    (next : ∀ t u, t.lowered? = some u → motive u → motive t) (t : Ty) : motive t := by
  induction height : t.height using Nat.strongRecOn generalizing t with
  | _ n ih =>
    subst height
    cases lowered : t.lowered? with
    | none => exact lowest t lowered
    | some u => exact next t u lowered (ih _ (height_lowered lowered) u rfl)

/-- What a type is after it was lowered a number of times, if it can be lowered so often. -/
def loweredTimes : Nat → Ty → Option Ty
  | 0, t => some t
  | times + 1, t => t.lowered?.bind (loweredTimes times)

theorem getElem?_chain (t : Ty) (k : Nat) : t.chain[k]? = loweredTimes k t := by
  induction t using lowering_induction generalizing k with
  | lowest t lowered =>
    rw [chain_of_lowest lowered]
    cases k with
    | zero => rfl
    | succ k => rw [loweredTimes, lowered]; rfl
  | next t u lowered ih =>
    rw [chain_of_lowered lowered]
    cases k with
    | zero => rfl
    | succ k =>
      rw [loweredTimes, lowered]
      exact ih k

theorem eq_or_height_lt {t u : Ty} (member : u ∈ t.chain) : u = t ∨ u.height < t.height := by
  refine chain_induction (motive := fun u => u = t ∨ u.height < t.height) ?_ (.inl rfl) member
  intro middle u lowered earlier
  have lower := height_lowered lowered
  rcases earlier with rfl | below
  · exact .inr lower
  · exact .inr (Nat.lt_trans lower below)

/-- Types on each other's chains are the same. -/
theorem eq_of_mem_chains {t u : Ty} (first : t ∈ u.chain) (second : u ∈ t.chain) : t = u := by
  rcases eq_or_height_lt first with equal | below
  · exact equal
  · rcases eq_or_height_lt second with equal | above
    · exact equal.symm
    · omega

theorem nodup_chain (t : Ty) : t.chain.Nodup := by
  induction t using lowering_induction with
  | lowest t lowered =>
    rw [chain_of_lowest lowered]
    exact List.pairwise_singleton ..
  | next t u lowered ih =>
    rw [chain_of_lowered lowered]
    refine List.nodup_cons.mpr ⟨fun again => ?_, ih⟩
    have lower := height_lowered lowered
    rcases eq_or_height_lt again with rfl | below
    · exact Nat.lt_irrefl _ lower
    · exact Nat.lt_asymm lower below

/-! ### The least common type -/

/-- A type on the chains of some types, from which everything else on all of their chains is reached. -/
structure Joint (types : List Ty) (t : Ty) : Prop where
  common : ∀ a ∈ types, t ∈ a.chain
  least : ∀ u, (∀ a ∈ types, u ∈ a.chain) → u ∈ t.chain

theorem Joint.unique {types : List Ty} {t u : Ty} (first : Joint types t) (second : Joint types u) :
    t = u :=
  eq_of_mem_chains (second.least t first.common) (first.least u second.common)

theorem joint_congr {types types' : List Ty}
    (shared : ∀ u, (∀ a ∈ types, u ∈ a.chain) ↔ ∀ a ∈ types', u ∈ a.chain) {t : Ty} :
    Joint types t ↔ Joint types' t := by
  constructor
  · intro joint
    exact ⟨(shared t).mp joint.common, fun u common => joint.least u ((shared u).mpr common)⟩
  · intro joint
    exact ⟨(shared t).mpr joint.common, fun u common => joint.least u ((shared u).mp common)⟩

theorem joint_perm {types types' : List Ty} (same : types.Perm types') {t : Ty} :
    Joint types t ↔ Joint types' t :=
  joint_congr fun _ => forall_congr' fun _ => imp_congr_left same.mem_iff

theorem joint_self (t : Ty) : Joint [t] t :=
  ⟨List.forall_mem_singleton.mpr (mem_chain_self t), fun _ => List.forall_mem_singleton.mp⟩

/-- Two chains that have met go on together: the first common type is followed by all others. -/
theorem mem_chain_of_join {a b t u : Ty} (joined : join? a b = some t) (first : u ∈ a.chain)
    (second : u ∈ b.chain) : u ∈ t.chain := by
  -- The search walks down the first chain; what it has passed by is not on the second, so not `u`.
  induction a using lowering_induction with
  | lowest a lowered =>
    rw [chain_of_lowest lowered, List.mem_singleton] at first
    subst first
    rw [join?_of_mem second] at joined
    cases joined
    exact mem_chain_self _
  | next a lower lowered ih =>
    by_cases inside : a ∈ b.chain
    · rw [join?_of_mem inside] at joined
      cases joined
      exact first
    · have apart : ¬b.chain.contains a = true := fun held => inside (List.contains_iff_mem.mp held)
      rw [chain_of_lowered lowered] at first
      rw [join?, chain_of_lowered lowered, List.find?_cons_of_neg apart] at joined
      rcases List.mem_cons.mp first with rfl | further
      · exact absurd second inside
      · exact ih joined further

theorem join?_eq_none_iff {a b : Ty} : join? a b = none ↔ ∀ u ∈ a.chain, u ∉ b.chain := by
  rw [join?, List.find?_eq_none]
  simp only [List.contains_iff_mem]

theorem join?_eq_some_iff {a b t : Ty} : join? a b = some t ↔ Joint [a, b] t := by
  have both (u : Ty) : (∀ c ∈ [a, b], u ∈ c.chain) ↔ u ∈ a.chain ∧ u ∈ b.chain := by
    rw [List.forall_mem_cons, List.forall_mem_singleton]
  have least {u : Ty} (joined : join? a b = some u) : Joint [a, b] u := by
    refine ⟨(both u).mpr (mem_chains_of_join joined), fun v shared => ?_⟩
    obtain ⟨first, second⟩ := (both v).mp shared
    exact mem_chain_of_join joined first second
  refine ⟨least, fun joint => ?_⟩
  obtain ⟨first, second⟩ := (both t).mp joint.common
  cases joined : join? a b with
  | none => exact absurd second (join?_eq_none_iff.mp joined t first)
  | some u => rw [(least joined).unique joint]

theorem join?_comm (a b : Ty) : join? a b = join? b a := by
  refine Option.ext fun t => ?_
  rw [join?_eq_some_iff, join?_eq_some_iff]
  exact joint_perm (.swap ..)

/-- Two types may be joined before the others. -/
theorem joint_cons_iff {a b joined t : Ty} {others : List Ty} (found : join? a b = some joined) :
    Joint (a :: b :: others) t ↔ Joint (joined :: others) t := by
  obtain ⟨first, second⟩ := mem_chains_of_join found
  refine joint_congr fun u => ?_
  simp only [List.forall_mem_cons]
  constructor
  · rintro ⟨onFirst, onSecond, rest⟩
    exact ⟨mem_chain_of_join found onFirst onSecond, rest⟩
  · rintro ⟨on, rest⟩
    exact ⟨mem_chain_trans first on, mem_chain_trans second on, rest⟩

theorem not_joint_of_apart {a b t : Ty} {others : List Ty} (apart : join? a b = none) :
    ¬Joint (a :: b :: others) t := by
  intro joint
  obtain ⟨first, rest⟩ := List.forall_mem_cons.mp joint.common
  exact join?_eq_none_iff.mp apart t first (rest b List.mem_cons_self)

theorem join?_bind_iff {a b c t : Ty} :
    (join? a b).bind (join? · c) = some t ↔ Joint [a, b, c] t := by
  cases found : join? a b with
  | none =>
    refine ⟨fun impossible => ?_, fun joint => absurd joint (not_joint_of_apart found)⟩
    cases impossible
  | some joined =>
    rw [joint_cons_iff found]
    exact join?_eq_some_iff

theorem join?_assoc (a b c : Ty) :
    (join? a b).bind (join? · c) = (join? b c).bind (join? a ·) := by
  have turned : (join? b c).bind (join? a ·) = (join? b c).bind (join? · a) :=
    congrArg (join? b c).bind (funext fun t => join?_comm a t)
  have rotated : ([a] ++ [b, c]).Perm ([b, c] ++ [a]) := List.perm_append_comm
  refine Option.ext fun t => ?_
  rw [turned, join?_bind_iff, join?_bind_iff]
  exact joint_perm rotated

end Ty

namespace Value

/-! ### Values -/

theorem foldlM_joinNext_iff {values : List Value} {first : Ty} {joint : Option Ty} :
    values.foldlM joinNext (some first) = .ok joint ↔
      ∃ t, joint = some t ∧ Ty.Joint (first :: values.map (·.ty)) t := by
  induction values generalizing first with
  | nil =>
    constructor
    · rintro ⟨⟩
      exact ⟨first, rfl, Ty.joint_self first⟩
    · rintro ⟨t, rfl, only⟩
      rw [only.unique (Ty.joint_self first)]
      rfl
  | cons v rest ih =>
    rw [List.foldlM_cons, List.map_cons, joinNext]
    cases found : Ty.join? first v.ty with
    | none =>
      constructor
      · intro impossible
        cases impossible
      · rintro ⟨t, -, joint⟩
        exact absurd joint (Ty.not_joint_of_apart found)
    | some joined =>
      -- From here on the joint type stands for the two that it was made of.
      rw [ok_bind, ih]
      simp only [Ty.joint_cons_iff found]

/-- Values are joined at the least common one of their types. -/
theorem jointTy_cons_iff {v : Value} {rest : List Value} {joint : Option Ty} :
    jointTy (v :: rest) = .ok joint ↔
      ∃ t, joint = some t ∧ Ty.Joint ((v :: rest).map (·.ty)) t := by
  rw [jointTy_eq, List.foldlM_cons, joinNext, ok_bind]
  exact foldlM_joinNext_iff

theorem jointTy_perm {values values' : List Value} (same : values.Perm values')
    {joint : Option Ty} : jointTy values = .ok joint ↔ jointTy values' = .ok joint := by
  cases values with
  | nil => rw [same.nil_eq]
  | cons v rest =>
    cases values' with
    | nil => exact absurd same.eq_nil (List.cons_ne_nil v rest)
    | cons v' rest' =>
      rw [jointTy_cons_iff, jointTy_cons_iff]
      simp only [Ty.joint_perm (same.map (·.ty))]

/-! ### Literals -/

/-- One pair of a map literal with both halves cast. -/
def literalPair (keyTy valueTy : Option Ty) : Slot × Slot → Except EvalError (Value × Slot)
  | (key, value) => do
    match ← castSlot keyTy key with
    | none => throw (.nullOperand .mapLiteralKey)
    | some key => return (key, ← castSlot valueTy value)

theorem ofEntryLiteral_eq_ok {pairs : List (Slot × Slot)} {v : Value} :
    ofEntryLiteral pairs = .ok v ↔
      ∃ keyTy valueTy out, jointTy (pairs.filterMap (·.1)) = .ok keyTy ∧
        jointTy (pairs.filterMap (·.2)) = .ok valueTy ∧
        pairs.mapM (literalPair keyTy valueTy) = .ok out ∧
        v = .map keyTy valueTy (insertAll [] out) := by
  constructor
  · intro made
    obtain ⟨keyTy, foundKey, others⟩ := bind_eq_ok.mp made
    obtain ⟨valueTy, foundValue, others⟩ := bind_eq_ok.mp others
    obtain ⟨out, casts, equal⟩ := bind_eq_ok.mp others
    exact ⟨keyTy, valueTy, out, foundKey, foundValue, casts, (pure_eq_ok.mp equal).symm⟩
  · rintro ⟨keyTy, valueTy, out, foundKey, foundValue, casts, rfl⟩
    refine bind_eq_ok.mpr ⟨keyTy, foundKey, bind_eq_ok.mpr ⟨valueTy, foundValue, ?_⟩⟩
    exact bind_eq_ok.mpr ⟨out, casts, rfl⟩

theorem ofLiteral_of_halves {items : List Slot} {pairs : List (Slot × Slot)}
    (nonempty : items ≠ []) (halved : items.mapM halves? = some pairs) :
    ofLiteral items = ofEntryLiteral pairs := by
  cases items with
  | nil => exact absurd rfl nonempty
  | cons => simp only [ofLiteral, halved]

/-- A literal that is not made of entries alone is a list. Elements without a joint type, which are all
missing, stay as they are. -/
theorem ofLiteral_eq_ok {items : List Slot} (other : items.mapM halves? = none) {v : Value} :
    ofLiteral items = .ok v ↔
      ∃ joint out, jointTy (items.filterMap id) = .ok joint ∧
        items.mapM (castSlot joint) = .ok out ∧ v = .list joint out := by
  have untyped : items.mapM (castSlot none) = .ok items := by
    rw [mapM_of_each (g := id) fun slot _ => by cases slot <;> rfl, List.map_id]
  constructor
  · intro made
    unfold ofLiteral at made
    split at made
    · rename_i entries
      cases other.symm.trans entries
    · obtain ⟨joint, found, rest⟩ := bind_eq_ok.mp made
      cases joint with
      | none =>
        cases rest
        exact ⟨none, _, found, untyped, rfl⟩
      | some t =>
        obtain ⟨out, casts, equal⟩ := bind_eq_ok.mp rest
        cases equal
        exact ⟨some t, out, found, (castItems_eq t _).symm.trans casts, rfl⟩
  · rintro ⟨joint, out, found, casts, rfl⟩
    unfold ofLiteral
    split
    · rename_i entries
      cases other.symm.trans entries
    · refine bind_eq_ok.mpr ⟨joint, found, ?_⟩
      cases joint with
      | none =>
        cases untyped.symm.trans casts
        rfl
      | some t =>
        exact bind_eq_ok.mpr ⟨out, (castItems_eq t _).trans casts, rfl⟩

private theorem exists_mapM_of_perm {α β : Type} {f : α → Option β} {members members' : List α}
    (same : members.Perm members') {given : List β} (run : members.mapM f = some given) :
    ∃ given', members'.mapM f = some given' ∧ given.Perm given' := by
  induction same generalizing given with
  | nil => exact ⟨given, run, .refl given⟩
  | cons a _ ih =>
    rw [List.mapM_cons] at run
    obtain ⟨first, ran, others⟩ := Option.bind_eq_some_iff.mp run
    obtain ⟨more, ranRest, equal⟩ := Option.bind_eq_some_iff.mp others
    cases equal
    obtain ⟨more', ranRest', sameRest⟩ := ih ranRest
    exact ⟨first :: more', by rw [List.mapM_cons, ran, ranRest']; rfl, sameRest.cons first⟩
  | swap a b rest =>
    simp only [List.mapM_cons] at run
    obtain ⟨first, ran, others⟩ := Option.bind_eq_some_iff.mp run
    obtain ⟨tail, ranTail, equal⟩ := Option.bind_eq_some_iff.mp others
    obtain ⟨second, ranNext, others⟩ := Option.bind_eq_some_iff.mp ranTail
    obtain ⟨more, ranRest, equalTail⟩ := Option.bind_eq_some_iff.mp others
    cases equalTail
    cases equal
    refine ⟨second :: first :: more, ?_, .swap ..⟩
    rw [List.mapM_cons, List.mapM_cons, ranNext, ran, ranRest]
    rfl
  | trans _ _ ih ih' =>
    obtain ⟨middle, ranMiddle, sameFirst⟩ := ih run
    obtain ⟨last, ranLast, sameLast⟩ := ih' ranMiddle
    exact ⟨last, ranLast, sameFirst.trans sameLast⟩

/-- Elements in another order make a literal of the same type, or none as well. -/
theorem exists_ofLiteral_of_perm {items items' : List Slot} (same : items.Perm items') {v : Value}
    (made : ofLiteral items = .ok v) : ∃ v', ofLiteral items' = .ok v' ∧ v'.ty = v.ty := by
  have alike {α β : Type} {f : α → Except EvalError β} {members members' : List α} {given : List β}
      (perm : members.Perm members') (run : members.mapM f = .ok given) :
      ∃ given', members'.mapM f = .ok given' :=
    exists_mapM_iff.mpr fun a member => exists_mapM_iff.mp ⟨given, run⟩ a (perm.mem_iff.mpr member)
  cases halved : items.mapM halves? with
  | none =>
    have other : items'.mapM halves? = none := by
      refine Option.eq_none_iff_forall_ne_some.mpr fun pairs halved' => ?_
      obtain ⟨pairs', impossible, -⟩ := exists_mapM_of_perm same.symm halved'
      cases halved.symm.trans impossible
    obtain ⟨joint, out, found, casts, rfl⟩ := (ofLiteral_eq_ok halved).mp made
    obtain ⟨out', casts'⟩ := alike same casts
    refine ⟨.list joint out', (ofLiteral_eq_ok other).mpr ⟨joint, out', ?_, casts', rfl⟩, rfl⟩
    exact (jointTy_perm (same.filterMap id)).mp found
  | some pairs =>
    by_cases empty : items = []
    · subst empty
      rw [← same.nil_eq]
      exact ⟨v, made, rfl⟩
    · have nonempty : items' ≠ [] := fun none => empty (none ▸ same).eq_nil
      obtain ⟨pairs', halved', samePairs⟩ := exists_mapM_of_perm same halved
      rw [ofLiteral_of_halves empty halved] at made
      obtain ⟨keyTy, valueTy, out, foundKey, foundValue, casts, rfl⟩ := ofEntryLiteral_eq_ok.mp made
      obtain ⟨out', casts'⟩ := alike samePairs casts
      refine ⟨.map keyTy valueTy (insertAll [] out'), ?_, rfl⟩
      rw [ofLiteral_of_halves nonempty halved']
      exact ofEntryLiteral_eq_ok.mpr ⟨keyTy, valueTy, out',
        (jointTy_perm (samePairs.filterMap _)).mp foundKey,
        (jointTy_perm (samePairs.filterMap _)).mp foundValue, casts', rfl⟩

end Value

/-- Joining types makes a semilattice of them, but for those without a joint type: each chain ends and
names no type twice, the joint of two types is the least that they have in common, and neither order
nor grouping matters. So neither does the order of the values whose joint type is asked for, or of the
elements of a literal. -/
theorem Ty.semilattice_of_join :
    (∀ t : Ty, (∀ k, t.chain[k]? = loweredTimes k t) ∧ t.chain.Nodup) ∧
      (∀ a b t, join? a b = some t ↔ Joint [a, b] t) ∧
      (∀ a b, join? a b = none ↔ ∀ u ∈ a.chain, u ∉ b.chain) ∧
      (∀ a b, join? a b = join? b a) ∧
      (∀ a, join? a a = some a) ∧
      (∀ a b c, (join? a b).bind (join? · c) = (join? b c).bind (join? a ·)) ∧
      (∀ values values', values.Perm values' →
        ∀ joint, Value.jointTy values = .ok joint ↔ Value.jointTy values' = .ok joint) ∧
      ∀ items items', items.Perm items' → ∀ v, Value.ofLiteral items = .ok v →
        ∃ v', Value.ofLiteral items' = .ok v' ∧ v'.ty = v.ty :=
  ⟨fun t => ⟨getElem?_chain t, nodup_chain t⟩, fun _ _ _ => join?_eq_some_iff,
    fun _ _ => join?_eq_none_iff, join?_comm, join?_self, join?_assoc,
    fun _ _ same _ => Value.jointTy_perm same,
    fun _ _ same _ made => Value.exists_ofLiteral_of_perm same made⟩

theorem Ty.semilattice_of_join_widened :
    let values : List Value := [.integer .byte 1, .integer .long 2, .integer .short 3]
    let items : List Slot := [some (.integer .byte 1), none, some (.integer .long 2)]
    Value.jointTy values.reverse = .ok (some .long) ∧
      ∃ v, Value.ofLiteral items.reverse = .ok v ∧ v.ty = .list (some .long) := by
  intro values items
  obtain ⟨-, -, -, -, -, -, ofValues, ofItems⟩ := semilattice_of_join
  refine ⟨(ofValues values values.reverse (List.reverse_perm values).symm _).mp rfl, ?_⟩
  exact ofItems items items.reverse (List.reverse_perm items).symm
    (.list (some .long) [some (.integer .long 1), none, some (.integer .long 2)]) rfl

end Immediate
