import Immediate.Eval.Operand
/-! Streams by what they tell in the end: the errors they report and the values they yield, each in
order. Joining streams joins both; changing, spreading and pairing values do the same to the list of
them, whatever is reported in between. -/
namespace Immediate

namespace Stream

variable {α β γ : Type}

/-- The values of a stream. -/
def values (s : Stream α) : List α := s.drain.2

/-- The errors that it reports. -/
def reports (s : Stream α) : List EvalError := s.drain.1

private theorem drainOnto_eq (reported : List EvalError) (yielded : List α) (s : Stream α) :
    drainOnto reported yielded s = (reported.reverse ++ s.reports, yielded.reverse ++ s.values) := by
  unfold reports values drain
  induction s generalizing reported yielded with
  | done => simp only [drainOnto, List.reverse_nil, List.append_nil]
  | yield value rest ih =>
    simp only [drainOnto]
    rw [ih () reported (value :: yielded), ih () [] [value]]
    simp only [List.reverse_cons, List.reverse_nil, List.nil_append, List.append_assoc]
  | report error rest ih =>
    simp only [drainOnto]
    rw [ih () (error :: reported) yielded, ih () [error] []]
    simp only [List.reverse_cons, List.reverse_nil, List.nil_append, List.append_assoc]

@[simp] theorem values_done : (done : Stream α).values = [] := rfl

@[simp] theorem values_yield (value : α) (rest : Unit → Stream α) :
    (yield value rest).values = value :: (rest ()).values := by
  change (drainOnto [] [value] (rest ())).2 = _
  rw [drainOnto_eq]
  rfl

@[simp] theorem values_report (error : EvalError) (rest : Unit → Stream α) :
    (report error rest).values = (rest ()).values := by
  change (drainOnto [error] [] (rest ())).2 = _
  rw [drainOnto_eq]
  rfl

@[simp] theorem reports_yield (value : α) (rest : Unit → Stream α) :
    (yield value rest).reports = (rest ()).reports := by
  change (drainOnto [] [value] (rest ())).1 = _
  rw [drainOnto_eq]
  rfl

@[simp] theorem reports_report (error : EvalError) (rest : Unit → Stream α) :
    (report error rest).reports = error :: (rest ()).reports := by
  change (drainOnto [error] [] (rest ())).1 = _
  rw [drainOnto_eq]
  rfl

@[simp] theorem values_ofList (values : List α) : (ofList values).values = values := by
  induction values with
  | nil => rfl
  | cons value rest ih => rw [ofList, values_yield, ih]

@[simp] theorem reports_ofList (values : List α) : (ofList values).reports = [] := by
  induction values with
  | nil => rfl
  | cons value rest ih => rw [ofList, reports_yield, ih]

@[simp] theorem values_map (f : α → β) (s : Stream α) : (s.map f).values = s.values.map f := by
  induction s with
  | done => rfl
  | yield value rest ih => rw [map, values_yield, values_yield, ih, List.map_cons]
  | report error rest ih => rw [map, values_report, values_report, ih]

@[simp] theorem values_zipIdx (s : Stream α) (n : Nat) :
    (s.zipIdx n).values = s.values.zipIdx n := by
  induction s generalizing n with
  | done => rfl
  | yield value rest ih => rw [zipIdx, values_yield, values_yield, ih, List.zipIdx_cons]
  | report error rest ih => rw [zipIdx, values_report, values_report, ih]

@[simp] theorem values_append (s : Stream α) (next : Unit → Stream α) :
    (s.append next).values = s.values ++ (next ()).values := by
  induction s with
  | done => rfl
  | yield value rest ih => rw [append, values_yield, values_yield, ih, List.cons_append]
  | report error rest ih => rw [append, values_report, values_report, ih]

@[simp] theorem reports_append (s : Stream α) (next : Unit → Stream α) :
    (s.append next).reports = s.reports ++ (next ()).reports := by
  induction s with
  | done => rfl
  | yield value rest ih => rw [append, reports_yield, reports_yield, ih]
  | report error rest ih => rw [append, reports_report, reports_report, ih, List.cons_append]

@[simp] theorem values_flatMap (f : α → Stream β) (s : Stream α) :
    (s.flatMap f).values = s.values.flatMap fun value => (f value).values := by
  induction s with
  | done => rfl
  | yield value rest ih =>
    rw [flatMap, values_append, ih, values_yield, List.flatMap_cons]
  | report error rest ih => rw [flatMap, values_report, values_report, ih]

/-- A value is paired with the next one of a stream, if any comes. -/
private theorem values_pairNext (f : α → β → γ) (value : α) (next : Stream β → Stream γ)
    (paired : List β → List γ) (held : ∀ t, (next t).values = paired t.values) (t : Stream β) :
    (pairNext f value next t).values = match t.values with
      | [] => []
      | other :: others => f value other :: paired others := by
  induction t with
  | done => rfl
  | yield other rest ih => rw [pairNext, values_yield, values_yield, held]
  | report error rest ih => rw [pairNext, values_report, values_report, ih]

@[simp] theorem values_zipWith (f : α → β → γ) (s : Stream α) (t : Stream β) :
    (s.zipWith f t).values = s.values.zipWith f t.values := by
  induction s generalizing t with
  | done => rfl
  | yield value rest ih =>
    rw [zipWith, values_pairNext f value _ (fun others => (rest ()).values.zipWith f others)
      (fun other => ih () other), values_yield]
    cases t.values with
    | nil => rfl
    | cons other others => rfl
  | report error rest ih => rw [zipWith, values_report, values_report, ih]

end Stream

namespace Operand

variable {α : Type}

/-- All values of an operand. -/
def values (operand : Operand α) : List α := operand.toStream.values

@[simp] theorem values_single (value : α) : (single value).values = [value] := by
  simp only [values, toStream, Stream.values_yield, Stream.values_done]

@[simp] theorem values_many (s : Stream α) : (many s).values = s.values := rfl

@[simp] theorem values_spread (list : List α) : (spread list).values = list :=
  Stream.values_ofList list

theorem values_drain (operand : Operand Slot) : operand.drain.2.values = operand.values := by
  cases operand with
  | single slot => exact (values_single slot).symm
  | many s => rfl

/-! ### Fanning out. An operation that asks no host does the same each time it runs. -/

/-- Single operands make one tuple. -/
theorem tuples_single (values : List α) : tuples (values.map .single) = .single values := by
  induction values with
  | nil => rfl
  | cons value rest ih =>
    rw [List.map_cons, tuples, ih]
    rfl

/-- The values of one element's results; there are none if it failed. -/
def yields (result : Except EvalError (Operand α)) : List α :=
  match result with
  | .ok operand => operand.values
  | .error _ => []

theorem values_resultsOrReport (result : Except EvalError (Operand α)) :
    (resultsOrReport result).values = yields result := by
  cases result with
  | ok operand => rfl
  | error e => exact Stream.values_report e _

section Drained
variable (operation : List Slot → Except EvalError (Operand Slot))

/-- The evaluated form of what an operation gives. -/
def drained (result : Except EvalError (Operand Slot)) : Except EvalError Evaluated :=
  (fun operand => operand.drain.2) <$> result

private theorem drained_fanOutOne_many (s : Stream (List Slot)) :
    drained (fanOutOne (fun _ => operation) (.many s)) =
      .ok (.many (s.values.flatMap fun args => yields (operation args))) := by
  have spread : ((s.zipIdx 0).flatMap fun (args, _) => resultsOrReport (operation args)).values =
      s.values.flatMap fun args => yields (operation args) := by
    rw [Stream.values_flatMap, Stream.values_zipIdx]
    simp only [values_resultsOrReport]
    rw [← List.flatMap_map Prod.fst fun args => yields (operation args), List.zipIdx_map_fst]
  rw [← spread]
  rfl

theorem drained_fanOut_one (target : Operand Slot) :
    drained (fanOut (fun _ => operation) [target]) =
      match target.drain.2 with
      | .single v => drained (operation [v])
      | .many vs => .ok (.many (vs.flatMap fun v => yields (operation [v]))) := by
  cases target with
  | single v => rfl
  | many s =>
    refine (drained_fanOutOne_many operation (s.map (· :: []))).trans ?_
    rw [Stream.values_map, List.flatMap_map]
    rfl

theorem drained_fanOut_two (target index : Operand Slot) :
    drained (fanOut (fun _ => operation) [target, index]) =
      match target.drain.2, index.drain.2 with
      | .single v, .single i => drained (operation [v, i])
      | .many vs, .single i => .ok (.many (vs.flatMap fun v => yields (operation [v, i])))
      | .single v, .many is => .ok (.many (is.flatMap fun i => yields (operation [v, i])))
      | .many vs, .many is =>
        .ok (.many ((vs.zip is).flatMap fun (v, i) => yields (operation [v, i]))) := by
  cases target with
  | single v =>
    cases index with
    | single i => rfl
    | many t =>
      refine (drained_fanOutOne_many operation ((t.map (· :: [])).map (v :: ·))).trans ?_
      rw [Stream.values_map, Stream.values_map, List.flatMap_map, List.flatMap_map]
      rfl
  | many s =>
    cases index with
    | single i =>
      refine (drained_fanOutOne_many operation (s.map (· :: [i]))).trans ?_
      rw [Stream.values_map, List.flatMap_map]
      rfl
    | many t =>
      refine (drained_fanOutOne_many operation (s.zipWith (· :: ·) (t.map (· :: [])))).trans ?_
      have paired : s.values.zipWith (· :: ·) (t.values.map (· :: [])) =
          (s.values.zip t.values).map fun (v, i) => [v, i] := by
        rw [List.zipWith_map_right, List.map_zip_eq_zipWith]
        rfl
      rw [Stream.values_zipWith, Stream.values_map, paired, List.flatMap_map]
      rfl

theorem drained_fanOut_bounds (target : Operand Slot) (first last : Slot) :
    drained (fanOut (fun _ => operation) [target, .single first, .single last]) =
      match target.drain.2 with
      | .single v => drained (operation [v, first, last])
      | .many vs => .ok (.many (vs.flatMap fun v => yields (operation [v, first, last]))) := by
  cases target with
  | single v => rfl
  | many s =>
    refine (drained_fanOutOne_many operation (s.map (· :: [first, last]))).trans ?_
    rw [Stream.values_map, List.flatMap_map]
    rfl

end Drained

end Operand
end Immediate
