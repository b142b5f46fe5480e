import Immediate.Proofs.Declarations
import Immediate.Proofs.Unmoved
/-! Maps up to reordering. Two maps are the same just if the pairs of one can be reordered so that
they stand beside those of the other, key by key and value by value the same. A key finds its pair by
what it is the same as, so keys that are the same find the same, at the same place. -/
namespace Immediate.Value

section
variable {pairs others : List (Value × Slot)} (keyed : PairsKeyed pairs)
  (othersKeyed : PairsKeyed others)
include keyed othersKeyed

/-- A map is the same as another just if one is a reordering of the other. -/
theorem same_map_iff_reordered (keyTy valueTy keyTy' valueTy' : Option Ty) :
    same (.map keyTy valueTy pairs) (.map keyTy' valueTy' others) = true ↔
      ∃ reordered, reordered.Perm others ∧ Aligned pairs reordered := by
  rw [same, Bool.and_eq_true, decide_eq_true_eq, pairsWithin_iff_mem keyed.keys othersKeyed]
  constructor
  · rintro ⟨long, paired⟩
    refine exists_perm_beside ?_ paired (Nat.le_of_eq long.symm)
    refine keyed.apart.imp_of_mem fun {first second} inFirst inSecond apart z member held => ?_
    rintro ⟨shared, -⟩
    have firstKeyed := keyed.keys first inFirst
    have secondKeyed := keyed.keys second inSecond
    have partnerKeyed := othersKeyed.keys z member
    rw [same_comm secondKeyed partnerKeyed,
      same_left_congr firstKeyed partnerKeyed secondKeyed held.1, apart] at shared
    cases shared
  · rintro ⟨reordered, perm, aligned⟩
    refine ⟨aligned.length_eq.trans perm.length_eq, fun pair member => ?_⟩
    obtain ⟨other, inside, held⟩ := exists_beside aligned pair member
    exact ⟨other, perm.mem_iff.mp inside, held⟩

/-- A key finds its pair at the same place if it is replaced by one that is the same, and the keys
of the map are as well. -/
theorem findIdx_congr {key key' : Value} (own : key.Keyed) (own' : key'.Keyed)
    (held : same key key' = true)
    (aligned : List.Forall₂ (fun pair other => same pair.1 other.1 = true) pairs others) :
    pairs.findIdx? (fun pair => same key pair.1) =
      others.findIdx? (fun pair => same key' pair.1) := by
  have keys := keyed.keys
  have otherKeys := othersKeyed.keys
  clear keyed othersKeyed
  induction aligned with
  | nil => rfl
  | @cons head head' _ _ sameHead _ ih =>
    have test : same key' head'.1 = same key head.1 :=
      same_congr own own' (keys head List.mem_cons_self) (otherKeys head' List.mem_cons_self) held
        sameHead
    rw [List.findIdx?_cons, List.findIdx?_cons, test,
      ih (fun pair member => keys pair (List.mem_cons_of_mem _ member))
        (fun pair member => otherKeys pair (List.mem_cons_of_mem _ member))]

end

/-- The laws of sameness, as maps rely on it. It is an equivalence of the values whose maps keep
their keys apart; floating-point numbers are the same bit by bit, declared child types do not matter
at any depth, and maps are the same just if one is a reordering of the other. A lookup finds the one
pair whose key is the same as the one asked for, and finds it at the same place when this key or keys
of the map are replaced by others that are the same. -/
theorem laws_of_sameness :
    Equivalence (fun a b : { v : Value // v.Keyed } => same a b = true) ∧
    (∀ x y : Binary32, same (.float x) (.float y) = true ↔ x.bits = y.bits) ∧
    (∀ x y : Binary64, same (.double x) (.double y) = true ↔ x.bits = y.bits) ∧
    (∀ p q : Position, same (.position p) (.position q) = true ↔
      p.x.bits = q.x.bits ∧ p.y.bits = q.y.bits ∧ p.z.bits = q.z.bits) ∧
    (∀ a b a' b' : Value, a.bare = a'.bare → b.bare = b'.bare → same a b = same a' b') ∧
    ∀ pairs others : List (Value × Slot), PairsKeyed pairs → PairsKeyed others →
      (∀ keyTy valueTy keyTy' valueTy' : Option Ty,
        same (.map keyTy valueTy pairs) (.map keyTy' valueTy' others) = true ↔
          ∃ reordered, reordered.Perm others ∧ Aligned pairs reordered) ∧
      ∀ key key' : Value, key.Keyed → key'.Keyed → same key key' = true →
        (∀ pair, pairs.find? (fun other => same key other.1) = some pair ↔
          pair ∈ pairs ∧ same key pair.1 = true) ∧
        pairs.find? (fun pair => same key pair.1) = pairs.find? (fun pair => same key' pair.1) ∧
        (List.Forall₂ (fun pair other => same pair.1 other.1 = true) pairs others →
          pairs.findIdx? (fun pair => same key pair.1) =
            others.findIdx? (fun pair => same key' pair.1)) := by
  refine ⟨⟨fun a => same_refl a.2, fun {a b} held => ?_, fun {a b c} => same_trans a.2 b.2 c.2⟩,
    fun x y => ?_, fun x y => ?_, fun p q => ?_, fun a b a' b' first second => ?_,
    fun pairs others keyed othersKeyed => ⟨same_map_iff_reordered keyed othersKeyed,
      fun key key' own own' held => ⟨fun pair => find_eq_some_iff keyed own,
        (find_of_same keyed.keys own own' held).symm,
        findIdx_congr keyed othersKeyed own own' held⟩⟩⟩
  · rw [same_comm b.2 a.2]
    exact held
  · rw [same, decide_eq_true_eq, Binary32.mk.injEq]
  · rw [same, decide_eq_true_eq, Binary64.mk.injEq]
  · rw [same, decide_eq_true_eq, Position.mk.injEq, Binary64.mk.injEq, Binary64.mk.injEq,
      Binary64.mk.injEq]
  · rw [← same_bare a b, first, second, same_bare]

/-- Maps whose keys are maps, which hold a pattern that is not a number, in other orders. -/
theorem laws_of_sameness_nested :
    let nan : Value := .float ⟨0x7FC00000⟩
    let key : Value := .map (some .int) none [(.integer .int 1, some nan), (.string "a", none)]
    let key' : Value := .map none none [(.string "a", none), (.integer .int 1, some nan)]
    let pairs : List (Value × Slot) := [(key, some nan), (.string "b", none)]
    let others : List (Value × Slot) := [(.string "b", none), (key', some nan)]
    let spelled : List (Value × Slot) := [(key', none), (.string "b", some nan)]
    key.Keyed ∧ key'.Keyed ∧ PairsKeyed pairs ∧ PairsKeyed others ∧ PairsKeyed spelled ∧
      same key key' = true ∧ (∃ reordered, reordered.Perm others ∧ Aligned pairs reordered) ∧
      others.find? (fun pair => same key pair.1) = some (key', some nan) ∧
      pairs.findIdx? (fun pair => same key pair.1) =
        spelled.findIdx? (fun pair => same key' pair.1) := by
  intro nan key key' pairs others spelled
  have own : key.Keyed := by decide
  have own' : key'.Keyed := by decide
  have keyed : PairsKeyed pairs := keyed_map_iff.mp (by decide : Keyed (.map none none pairs))
  have othersKeyed : PairsKeyed others :=
    keyed_map_iff.mp (by decide : Keyed (.map none none others))
  have spelledKeyed : PairsKeyed spelled :=
    keyed_map_iff.mp (by decide : Keyed (.map none none spelled))
  have held : same key key' = true := rfl
  obtain ⟨-, -, -, -, -, maps⟩ := laws_of_sameness
  have reordered := ((maps pairs others keyed othersKeyed).1 none none none none).mp rfl
  have found := ((maps others others othersKeyed othersKeyed).2 key key' own own' held).1
  have place := ((maps pairs spelled keyed spelledKeyed).2 key key' own own' held).2.2
  refine ⟨own, own', keyed, othersKeyed, spelledKeyed, held, reordered, ?_, ?_⟩
  · exact (found (key', some nan)).mpr ⟨List.mem_cons_of_mem _ List.mem_cons_self, held⟩
  · exact place (.cons held (.cons rfl .nil))

end Immediate.Value
