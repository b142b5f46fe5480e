import Immediate.Proofs.Outcomes
import Immediate.Value.Cast
/-! Chains of types. The bound on their length is only a bound, so a chain is its type followed by
the chain of what the type lowers to; what is on a chain has its own chain on it. Joining types, one
after another, stays on the chains of all of them. -/
namespace Immediate

namespace Ty

/-! ### The chain as a recursion -/

private theorem chainUpTo_of_lowest {t : Ty} (lowest : t.lowered? = none) (steps : Nat) :
    chainUpTo steps t = [t] := by
  cases steps with
  | zero => rfl
  | succ steps => rw [chainUpTo, lowest]

private theorem chainUpTo_of_height_le {t : Ty} {few many : Nat} (first : t.height ≤ few)
    (second : t.height ≤ many) : chainUpTo few t = chainUpTo many t := by
  induction few generalizing t many with
  | zero =>
    have lowest : t.lowered? = none := Option.eq_none_iff_forall_ne_some.mpr fun u lowered =>
      absurd (height_lowered lowered) (by omega)
    rw [chainUpTo_of_lowest lowest, chainUpTo_of_lowest lowest]
  | succ few ih =>
    cases lowered : t.lowered? with
    | none => rw [chainUpTo_of_lowest lowered, chainUpTo_of_lowest lowered]
    | some u =>
      have lower := height_lowered lowered
      obtain ⟨many, rfl⟩ : ∃ n, many = n + 1 := ⟨many - 1, by omega⟩
      rw [chainUpTo, chainUpTo, lowered]
      exact congrArg (t :: ·) (ih (by omega) (by omega))

theorem chain_of_lowest {t : Ty} (lowest : t.lowered? = none) : t.chain = [t] :=
  chainUpTo_of_lowest lowest _

theorem chain_of_lowered {t u : Ty} (lowered : t.lowered? = some u) : t.chain = t :: u.chain := by
  have lower := height_lowered lowered
  obtain ⟨steps, height⟩ : ∃ n, t.height = n + 1 := ⟨t.height - 1, by omega⟩
  rw [chain, height, chainUpTo, lowered]
  exact congrArg (t :: ·) (chainUpTo_of_height_le (by omega) (Nat.le_refl _))

theorem mem_chain_iff {t a : Ty} :
    a ∈ t.chain ↔ a = t ∨ ∃ u, t.lowered? = some u ∧ a ∈ u.chain := by
  cases lowered : t.lowered? with
  | none =>
    rw [chain_of_lowest lowered, List.mem_singleton]
    simp
  | some u =>
    rw [chain_of_lowered lowered, List.mem_cons]
    simp

theorem mem_chain_self (t : Ty) : t ∈ t.chain := mem_chain_iff.mpr (.inl rfl)

/-- What passes from a type to the one it lowers to holds of all that is on its chain. -/
theorem chain_induction {motive : Ty → Prop}
    (next : ∀ {t u : Ty}, t.lowered? = some u → motive t → motive u) {t u : Ty} (start : motive t)
    (member : u ∈ t.chain) : motive u := by
  induction height : t.height using Nat.strongRecOn generalizing t with
  | _ n ih =>
    subst height
    rcases mem_chain_iff.mp member with rfl | ⟨middle, lowered, further⟩
    · exact start
    · exact ih _ (height_lowered lowered) (next lowered start) further rfl

/-- What is on the chain of a type on a chain is on that chain too. -/
theorem mem_chain_trans {t u a : Ty} (first : u ∈ t.chain) (second : a ∈ u.chain) :
    a ∈ t.chain := by
  -- The end of the second chain is fixed, so the first one is walked backwards from it.
  have back : a ∈ u.chain → a ∈ t.chain :=
    chain_induction (motive := fun u => a ∈ u.chain → a ∈ t.chain)
      (fun lowered earlier inside => earlier (mem_chain_iff.mpr (.inr ⟨_, lowered, inside⟩))) id first
  exact back second

/-! ### Joint types -/

theorem mem_chains_of_join {a b t : Ty} (joined : join? a b = some t) :
    t ∈ a.chain ∧ t ∈ b.chain := by
  refine ⟨List.mem_of_find?_eq_some joined, ?_⟩
  have other := List.find?_some joined
  exact List.contains_iff_mem.mp other

/-- A type on the chain of another is where the two are joined. -/
theorem join?_of_mem {t u : Ty} (inside : t ∈ u.chain) : join? t u = some t := by
  have held : u.chain.contains t = true := List.contains_iff_mem.mpr inside
  cases lowered : t.lowered? with
  | none =>
    rw [join?, chain_of_lowest lowered]
    exact List.find?_cons_of_pos held
  | some next =>
    rw [join?, chain_of_lowered lowered]
    exact List.find?_cons_of_pos held

/-- Two values of one type are joined there. -/
theorem join?_self (t : Ty) : join? t t = some t := join?_of_mem (mem_chain_self t)

/-- Two values of a type whose kind has an operator are operated on there. -/
theorem operable?_self {t : Ty} {required : List Capability} (supported : t.supports required = true) :
    operable? t t required = some t := by
  rw [operable?, join?_self, Option.bind_some]
  cases lowered : t.lowered? with
  | none =>
    rw [chain_of_lowest lowered]
    exact List.find?_cons_of_pos supported
  | some next =>
    rw [chain_of_lowered lowered]
    exact List.find?_cons_of_pos supported

theorem mem_chains_of_operable {a b t : Ty} {required : List Capability}
    (operable : operable? a b required = some t) : t ∈ a.chain ∧ t ∈ b.chain := by
  obtain ⟨joint, joined, found⟩ := Option.bind_eq_some_iff.mp operable
  obtain ⟨first, second⟩ := mem_chains_of_join joined
  have further := List.mem_of_find?_eq_some found
  exact ⟨mem_chain_trans first further, mem_chain_trans second further⟩

end Ty

namespace Value

open Outcome

/-- The joint type of a value and those before it. -/
def joinNext (joint : Option Ty) (v : Value) : Except EvalError (Option Ty) :=
  match joint with
  | none => .ok (some v.ty)
  | some t =>
    match Ty.join? t v.ty with
    | some joined => .ok (some joined)
    | none => .error (.incompatible (.ty t) v.ty)

theorem jointTy_eq (values : List Value) : jointTy values = values.foldlM joinNext none := rfl

theorem exists_of_joinNext {joint out : Option Ty} {v : Value}
    (next : joinNext joint v = .ok out) :
    ∃ t, out = some t ∧ t ∈ v.ty.chain ∧ ∀ earlier ∈ joint, t ∈ earlier.chain := by
  cases joint with
  | none =>
    cases next
    exact ⟨v.ty, rfl, Ty.mem_chain_self _, nofun⟩
  | some earlier =>
    unfold joinNext at next
    cases joined : Ty.join? earlier v.ty with
    | none =>
      simp only [joined] at next
      cases next
    | some t =>
      simp only [joined] at next
      cases next
      obtain ⟨first, second⟩ := Ty.mem_chains_of_join joined
      refine ⟨t, rfl, second, ?_⟩
      rintro u ⟨⟩
      exact first

/-- Each further value takes the joint type along the chain that it is on already. -/
theorem exists_of_foldlM_joinNext {values : List Value} {first : Ty} {out : Option Ty}
    (found : values.foldlM joinNext (some first) = .ok out) :
    ∃ t, out = some t ∧ t ∈ first.chain ∧ ∀ v ∈ values, t ∈ v.ty.chain := by
  induction values generalizing first with
  | nil =>
    cases found
    exact ⟨first, rfl, Ty.mem_chain_self _, nofun⟩
  | cons v rest ih =>
    obtain ⟨next, joined, others⟩ := bind_eq_ok.mp found
    obtain ⟨middle, rfl, own, earlier⟩ := exists_of_joinNext joined
    obtain ⟨t, rfl, further, each⟩ := ih others
    refine ⟨t, rfl, Ty.mem_chain_trans (earlier first rfl) further, ?_⟩
    rintro w member
    rcases List.mem_cons.mp member with rfl | inside
    · exact Ty.mem_chain_trans own further
    · exact each w inside

/-- The joint type of values is on the chains of all their types; only no values have none. -/
theorem mem_chains_of_jointTy {values : List Value} {joint : Option Ty}
    (found : jointTy values = .ok joint) :
    (joint = none → values = []) ∧ ∀ t ∈ joint, ∀ v ∈ values, t ∈ v.ty.chain := by
  rw [jointTy_eq] at found
  cases values with
  | nil => exact ⟨fun _ => rfl, fun _ _ _ impossible => absurd impossible List.not_mem_nil⟩
  | cons v rest =>
    obtain ⟨t, rfl, own, each⟩ := exists_of_foldlM_joinNext found
    refine ⟨fun none => absurd none (Option.some_ne_none t), ?_⟩
    rintro u ⟨⟩ w member
    rcases List.mem_cons.mp member with rfl | inside
    · exact own
    · exact each w inside

/-- Values of one type have it as their joint type. -/
theorem jointTy_of_each {values : List Value} {t : Ty} (each : ∀ v ∈ values, v.ty = t)
    (nonempty : values ≠ []) : jointTy values = .ok (some t) := by
  have stays (rest : List Value) (alike : ∀ v ∈ rest, v.ty = t) :
      rest.foldlM joinNext (some t) = .ok (some t) := by
    induction rest with
    | nil => rfl
    | cons v rest ih =>
      have next : joinNext (some t) v = .ok (some t) := by
        rw [joinNext, alike v List.mem_cons_self, Ty.join?_self]
      rw [List.foldlM_cons, next, ok_bind, ih fun w member => alike w (List.mem_cons_of_mem v member)]
  cases values with
  | nil => exact absurd rfl nonempty
  | cons v rest =>
    have first : joinNext none v = .ok (some t) := by rw [joinNext, each v List.mem_cons_self]
    rw [jointTy_eq, List.foldlM_cons, first, ok_bind]
    exact stays rest fun w member => each w (List.mem_cons_of_mem v member)

end Value
end Immediate
