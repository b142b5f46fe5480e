import Immediate.Proofs.Streams
/-! The rule of fanning out, for any number of operands. Operands in step make one tuple for each value
of the shortest stream, and while they are asked for it their streams may report errors. An element that
fails leaves the others in step: it yields nothing, and its error is reported in its place. The operation
runs once for each tuple, and may do something else each time. -/
namespace Immediate

namespace Stream

variable {α β γ : Type}

/-- The errors reported while the value at a position is asked for, when all before it were taken.
Behind the last value they are what is reported before the end is seen. -/
def told : Stream α → Nat → List EvalError
  | .done, _ => []
  | .yield _ _, 0 => []
  | .yield _ rest, k + 1 => told (rest ()) k
  | .report error rest, 0 => error :: told (rest ()) 0
  | .report _ rest, k + 1 => told (rest ()) (k + 1)

/-- What follows the first value. -/
def onward : Stream α → Stream α
  | .done => .done
  | .yield _ rest => rest ()
  | .report _ rest => (rest ()).onward

@[simp] theorem values_onward (s : Stream α) : s.onward.values = s.values.tail := by
  induction s with
  | done => rfl
  | yield value rest ih => rw [onward, values_yield, List.tail_cons]
  | report error rest ih => rw [onward, values_report, ih]

@[simp] theorem told_onward (s : Stream α) (k : Nat) : s.onward.told k = s.told (k + 1) := by
  induction s with
  | done => rfl
  | yield value rest ih => rfl
  | report error rest ih => exact ih ()

@[simp] theorem told_map (f : α → β) (s : Stream α) (k : Nat) : (s.map f).told k = s.told k := by
  induction s generalizing k with
  | done => rfl
  | yield value rest ih =>
    cases k with
    | zero => rfl
    | succ k => exact ih () k
  | report error rest ih =>
    cases k with
    | zero => exact congrArg (error :: ·) (ih () 0)
    | succ k => exact ih () (k + 1)

@[simp] theorem told_zipIdx (s : Stream α) (n k : Nat) : (s.zipIdx n).told k = s.told k := by
  induction s generalizing n k with
  | done => rfl
  | yield value rest ih =>
    cases k with
    | zero => rfl
    | succ k => exact ih () (n + 1) k
  | report error rest ih =>
    cases k with
    | zero => exact congrArg (error :: ·) (ih () n 0)
    | succ k => exact ih () n (k + 1)

private theorem told_pairNext_zero (f : α → β → γ) (value : α) (next : Stream β → Stream γ)
    (t : Stream β) : (pairNext f value next t).told 0 = t.told 0 := by
  induction t with
  | done => rfl
  | yield other rest ih => rfl
  | report error rest ih => exact congrArg (error :: ·) (ih ())

private theorem told_pairNext_succ (f : α → β → γ) (value : α) (next : Stream β → Stream γ)
    {t : Stream β} (more : t.values ≠ []) (k : Nat) :
    (pairNext f value next t).told (k + 1) = (next t.onward).told k := by
  induction t with
  | done => exact absurd rfl more
  | yield other rest ih => rfl
  | report error rest ih =>
    rw [values_report] at more
    exact ih () more

/-- Streams in step are asked one after the other, the second only if the first has not ended. -/
theorem told_zipWith (f : α → β → γ) (s : Stream α) (t : Stream β) {k : Nat}
    (within : k ≤ s.values.length) (withinToo : k ≤ t.values.length) :
    (s.zipWith f t).told k = s.told k ++ if k < s.values.length then t.told k else [] := by
  induction s generalizing t k with
  | done =>
    obtain rfl := Nat.le_zero.mp within
    rfl
  | yield value rest ih =>
    rw [values_yield, List.length_cons] at within ⊢
    cases k with
    | zero =>
      rw [if_pos (Nat.zero_lt_succ _)]
      exact told_pairNext_zero f value _ t
    | succ k =>
      -- The first pair has been taken, so both streams go on behind their first values.
      have more : t.values ≠ [] := List.ne_nil_of_length_pos (by omega)
      have shorter : k ≤ t.onward.values.length := by
        rw [values_onward, List.length_tail]
        omega
      have later := ih () t.onward (Nat.le_of_succ_le_succ within) shorter
      simp only [told_onward] at later
      simp only [zipWith, told_pairNext_succ f value _ more, told, later, Nat.add_lt_add_iff_right]
  | report error rest ih =>
    rw [values_report] at within ⊢
    have behind := ih () t within withinToo
    cases k with
    | zero => exact congrArg (error :: ·) behind
    | succ k => exact behind

/-- A stream of streams tells of each value what it tells while the value is asked for, and then what
the stream of the value tells. -/
theorem reports_flatMap {f : α → Stream β} {s : Stream α} {n : Nat} {value : Nat → α}
    (held : s.values = (List.range n).map value) :
    (s.flatMap f).reports =
      ((List.range n).flatMap fun k => s.told k ++ (f (value k)).reports) ++ s.told n := by
  induction s generalizing n value with
  | done =>
    obtain rfl : n = 0 := by
      have counted := congrArg List.length held
      rwa [List.length_map, List.length_range, eq_comm] at counted
    rfl
  | yield first rest ih =>
    rw [values_yield] at held
    cases n with
    | zero => cases held
    | succ n =>
      rw [List.range_succ_eq_map, List.map_cons, List.map_map, List.cons.injEq] at held
      obtain ⟨rfl, others⟩ := held
      rw [flatMap, reports_append, ih () others, List.range_succ_eq_map, List.flatMap_cons,
        List.flatMap_map]
      exact (List.append_assoc ..).symm
  | report error rest ih =>
    rw [values_report] at held
    rw [flatMap, reports_report, ih () held]
    cases n with
    | zero => rfl
    | succ n =>
      rw [List.range_succ_eq_map, List.flatMap_cons, List.flatMap_cons, List.flatMap_map,
        List.flatMap_map]
      rfl

theorem flatMap_map (f : α → β) (g : β → Stream γ) (s : Stream α) :
    (s.map f).flatMap g = s.flatMap fun value => g (f value) := by
  induction s with
  | done => rfl
  | yield value rest ih => exact congrArg (append (g (f value))) (funext fun u => ih u)
  | report error rest ih => exact congrArg (report error) (funext fun u => ih u)

theorem zipIdx_map (f : α → β) (s : Stream α) (n : Nat) :
    (s.map f).zipIdx n = (s.zipIdx n).map (Prod.map f id) := by
  induction s generalizing n with
  | done => rfl
  | yield value rest ih => exact congrArg (yield (f value, n)) (funext fun u => ih u (n + 1))
  | report error rest ih => exact congrArg (report error) (funext fun u => ih u n)

end Stream

namespace Operand

variable {α β γ : Type}

/-- How many values come. A single value has no end: it comes as often as it is asked for. -/
def length? : Operand α → Option Nat
  | .single _ => none
  | .many s => some s.values.length

/-- The value that comes at a position. -/
def nth? : Operand α → Nat → Option α
  | .single value, _ => some value
  | .many s, k => s.values[k]?

/-- The errors reported while that value is asked for. -/
def told : Operand α → Nat → List EvalError
  | .single _, _ => []
  | .many s, k => s.told k

/-- The errors of an operand's stream. -/
def reports (operand : Operand α) : List EvalError := operand.toStream.reports

/-- The length of the shortest stream, if there is one. -/
def shortest (operands : List (Operand α)) : Option Nat := (operands.filterMap length?).min?

/-- The errors reported while a tuple is asked for. Operands are asked in order, until one has ended. -/
def asked : List (Operand α) → Nat → List EvalError
  | [], _ => []
  | operand :: rest, k => operand.told k ++ if (operand.nth? k).isSome then asked rest k else []

/-- What is reported of one element: the errors of its results, or the one on which it failed. -/
def failures (result : Except EvalError (Operand α)) : List EvalError :=
  match result with
  | .ok operand => operand.reports
  | .error e => [e]

theorem reports_resultsOrReport (result : Except EvalError (Operand α)) :
    (resultsOrReport result).reports = failures result := by
  cases result with
  | ok operand => rfl
  | error e => exact Stream.reports_report e _

/-! ### Two operands in step -/

theorem length?_zipWith (f : α → β → γ) (a : Operand α) (b : Operand β) :
    (zipWith f a b).length? = Option.merge min a.length? b.length? := by
  cases a <;> cases b <;>
    simp only [zipWith, length?, Stream.values_map, Stream.values_zipWith, List.length_map,
      List.length_zipWith, Option.merge]

theorem nth?_zipWith (f : α → β → γ) (a : Operand α) (b : Operand β) (k : Nat) :
    (zipWith f a b).nth? k = (a.nth? k).bind fun value => (b.nth? k).map (f value) := by
  cases a with
  | single value =>
    cases b with
    | single other => rfl
    | many t => simp only [zipWith, nth?, Stream.values_map, List.getElem?_map, Option.bind_some]
  | many s =>
    cases b with
    | single other =>
      simp only [zipWith, nth?, Stream.values_map, List.getElem?_map, Option.map_some]
      cases s.values[k]? <;> rfl
    | many t =>
      simp only [zipWith, nth?, Stream.values_zipWith, List.getElem?_zipWith]
      cases s.values[k]? <;> cases t.values[k]? <;> rfl

theorem told_zipWith (f : α → β → γ) {a : Operand α} {b : Operand β} {k : Nat}
    (within : ∀ n, a.length? = some n → k ≤ n) (withinToo : ∀ n, b.length? = some n → k ≤ n) :
    (zipWith f a b).told k = a.told k ++ if (a.nth? k).isSome then b.told k else [] := by
  cases a with
  | single value =>
    cases b with
    | single other => rfl
    | many t => exact Stream.told_map ..
  | many s =>
    cases b with
    | single other =>
      simp only [zipWith, told, Stream.told_map, ite_self, List.append_nil]
    | many t =>
      have held : (s.values[k]?).isSome = true ↔ k < s.values.length := by rw [isSome_getElem?]
      simp only [zipWith, told, nth?, held]
      exact Stream.told_zipWith f s t (within _ rfl) (withinToo _ rfl)

/-! ### Any number of operands in step -/

theorem shortest_cons (operand : Operand α) (rest : List (Operand α)) :
    shortest (operand :: rest) = Option.merge min operand.length? (shortest rest) := by
  unfold shortest
  cases operand with
  | single value =>
    simp only [List.filterMap_cons, length?]
    cases (rest.filterMap length?).min? <;> rfl
  | many s =>
    simp only [List.filterMap_cons, length?, List.min?_cons]
    cases (rest.filterMap length?).min? <;> rfl

theorem length?_tuples (operands : List (Operand α)) :
    (tuples operands).length? = shortest operands := by
  induction operands with
  | nil => rfl
  | cons operand rest ih => rw [tuples, length?_zipWith, ih, shortest_cons]

theorem nth?_tuples (operands : List (Operand α)) (k : Nat) :
    (tuples operands).nth? k = operands.mapM (·.nth? k) := by
  induction operands with
  | nil => rfl
  | cons operand rest ih =>
    rw [tuples, nth?_zipWith, ih, List.mapM_cons]
    cases operand.nth? k with
    | none => rfl
    | some value => cases rest.mapM (·.nth? k) <;> rfl

theorem le_of_shortest_cons {operand : Operand α} {rest : List (Operand α)} {k : Nat}
    (within : ∀ n, shortest (operand :: rest) = some n → k ≤ n) :
    (∀ n, operand.length? = some n → k ≤ n) ∧ ∀ n, shortest rest = some n → k ≤ n := by
  rw [shortest_cons] at within
  constructor
  · intro n own
    cases others : shortest rest with
    | none => exact within n (by rw [own, others]; rfl)
    | some m =>
      have least := within (min n m) (by rw [own, others]; rfl)
      omega
  · intro m others
    cases own : operand.length? with
    | none => exact within m (by rw [own, others]; rfl)
    | some n =>
      have least := within (min n m) (by rw [own, others]; rfl)
      omega

theorem told_tuples {operands : List (Operand α)} {k : Nat}
    (within : ∀ n, shortest operands = some n → k ≤ n) :
    (tuples operands).told k = asked operands k := by
  induction operands with
  | nil => rfl
  | cons operand rest ih =>
    obtain ⟨own, others⟩ := le_of_shortest_cons within
    rw [tuples, told_zipWith _ own (by rwa [length?_tuples]), ih others, asked]

theorem exists_shortest {operands : List (Operand α)} {s : Stream α} (member : .many s ∈ operands) :
    ∃ n, shortest operands = some n := by
  refine Option.ne_none_iff_exists'.mp fun none => ?_
  have lengths : operands.filterMap length? = [] := List.min?_eq_none_iff.mp none
  have length : s.values.length ∈ operands.filterMap length? := List.mem_filterMap.mpr ⟨_, member, rfl⟩
  rw [lengths] at length
  cases length

/-- As soon as there is a stream, the tuples are a stream of as many as the shortest one has values. -/
theorem exists_tuples {operands : List (Operand α)} {n : Nat} (least : shortest operands = some n) :
    ∃ (tuple : Nat → List α) (s : Stream (List α)),
      (∀ k < n, operands.mapM (·.nth? k) = some (tuple k)) ∧ tuples operands = .many s ∧
        s.values = (List.range n).map tuple ∧ ∀ k ≤ n, s.told k = asked operands k := by
  have counted := (length?_tuples operands).trans least
  have each := nth?_tuples operands
  have tells (k : Nat) (within : k ≤ n) : (tuples operands).told k = asked operands k := by
    refine told_tuples fun m held => ?_
    cases least.symm.trans held
    exact within
  cases made : tuples operands with
  | single args =>
    rw [made] at counted
    cases counted
  | many s =>
    rw [made] at counted each tells
    cases counted
    have held (k : Nat) (within : k < s.values.length) :
        operands.mapM (·.nth? k) = some ((s.values[k]?).getD []) := by
      rw [← each k, nth?, List.getElem?_eq_getElem within, Option.getD_some]
    refine ⟨fun k => (s.values[k]?).getD [], s, held, rfl, ?_, tells⟩
    refine List.ext_getElem (by rw [List.length_map, List.length_range]) fun k within _ => ?_
    rw [List.getElem_map, List.getElem_range, List.getElem?_eq_getElem within, Option.getD_some]

/-- Single operands are operated on once, and what the operation gives is what comes of them. With a
stream among them the operation, which may do something else each time, runs on one tuple for each
value of the shortest stream, in order. -/
theorem fanOut_in_step {β : Type} (operation : Nat → List α → Except EvalError (Operand β))
    (operands : List (Operand α)) :
    (∀ args, operands = args.map .single → fanOut operation operands = operation 0 args) ∧
      (∀ stream, .many stream ∈ operands →
        ∃ (n : Nat) (tuple : Nat → List α) (s : Stream β), shortest operands = some n ∧
          (∀ k < n, operands.mapM (·.nth? k) = some (tuple k)) ∧
          fanOut operation operands = .ok (.many s) ∧
          s.values = (List.range n).flatMap (fun k => yields (operation k (tuple k))) ∧
          s.reports = ((List.range n).flatMap fun k =>
            asked operands k ++ failures (operation k (tuple k))) ++ asked operands n) ∧
      ∀ operand, operands = [operand] →
        fanOutOne (fun k arg => operation k [arg]) operand = fanOut operation operands := by
  refine ⟨?_, fun stream member => ?_, ?_⟩
  · rintro args rfl
    rw [fanOut, tuples_single, fanOutOne]
  · obtain ⟨n, least⟩ := exists_shortest member
    obtain ⟨tuple, s, each, made, held, tells⟩ := exists_tuples least
    have numbered : (s.zipIdx 0).values = (List.range n).map fun k => (tuple k, k) := by
      rw [Stream.values_zipIdx, held]
      exact List.ext_getElem (by simp) fun k _ _ => by simp
    refine ⟨n, tuple, _, least, each, by rw [fanOut, made, fanOutOne], ?_, ?_⟩
    · rw [Stream.values_flatMap, numbered, List.flatMap_map]
      simp only [values_resultsOrReport]
    · have alike : ((List.range n).map fun k =>
            (s.zipIdx 0).told k ++ (resultsOrReport (operation k (tuple k))).reports) =
          (List.range n).map fun k => asked operands k ++ failures (operation k (tuple k)) := by
        refine List.map_congr_left fun k inside => ?_
        rw [Stream.told_zipIdx, tells k (Nat.le_of_lt (List.mem_range.mp inside)),
          reports_resultsOrReport]
      rw [Stream.reports_flatMap numbered, Stream.told_zipIdx, tells n (Nat.le_refl n),
        List.flatMap_def, List.flatMap_def, alike]
  · rintro operand rfl
    cases operand with
    | single arg => rfl
    | many s =>
      refine congrArg (fun t => Except.ok (many t)) ?_
      change _ = ((s.map (· :: [])).zipIdx 0).flatMap _
      rw [Stream.zipIdx_map, Stream.flatMap_map]
      rfl

theorem fanOut_in_step_divided :
    let divide : Nat → List Nat → Except EvalError (Operand Nat)
      | time, [a, b] => if b = 0 then .error .divisionByZero else .ok (.spread [time, a / b, a % b])
      | _, _ => .error .manyToSingle
    fanOut divide [.single 9, .single 2] = divide 0 [9, 2] ∧
      (∃ s, fanOut divide [.single 9, .many (.ofList [2, 0, 4]), .many (.ofList [])] = .ok (.many s) ∧
        s.values = []) ∧
      (∃ s, fanOut divide [.single 9, .many (.ofList [2, 0, 4])] = .ok (.many s) ∧
        s.values = [0, 4, 1, 2, 2, 1] ∧ s.reports = [.divisionByZero]) ∧
      fanOutOne (fun time arg => divide time [arg]) (.many (.ofList [9])) =
        fanOut divide [.many (.ofList [9])] := by
  intro divide
  refine ⟨(fanOut_in_step divide _).1 [9, 2] rfl, ?_, ?_, (fanOut_in_step divide _).2.2 _ rfl⟩
  · obtain ⟨n, tuple, s, least, -, made, values, -⟩ := (fanOut_in_step divide
      [.single 9, .many (.ofList [2, 0, 4]), .many (.ofList [])]).2.1 (.ofList []) (by simp)
    obtain rfl : 0 = n := Option.some.inj least
    exact ⟨s, made, values⟩
  · obtain ⟨n, tuple, s, least, each, made, values, reports⟩ := (fanOut_in_step divide
      [.single 9, .many (.ofList [2, 0, 4])]).2.1 (.ofList [2, 0, 4]) (by simp)
    obtain rfl : 3 = n := Option.some.inj least
    have first : [9, 2] = tuple 0 := Option.some.inj (each 0 (by decide))
    have second : [9, 0] = tuple 1 := Option.some.inj (each 1 (by decide))
    have third : [9, 4] = tuple 2 := Option.some.inj (each 2 (by decide))
    refine ⟨s, made, values.trans ?_, reports.trans ?_⟩
    · change yields (divide 0 (tuple 0)) ++ (yields (divide 1 (tuple 1)) ++
        (yields (divide 2 (tuple 2)) ++ [])) = _
      rw [← first, ← second, ← third]
      rfl
    · change ([] ++ failures (divide 0 (tuple 0))) ++ (([] ++ failures (divide 1 (tuple 1))) ++
        (([] ++ failures (divide 2 (tuple 2))) ++ [])) ++ [] = _
      rw [← first, ← second, ← third]
      rfl

end Operand
end Immediate
