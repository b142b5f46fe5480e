import Immediate.Proofs.Source.Completeness
/-! What a term is read into. The operators that wait are the right edge of a tree that is still
open: each waits with its left side, and each binds looser than those that came to wait after it.
Closing the edge gives a tree whose root is the rightmost of the loosest operators on every level,
and there is only one such tree. -/
namespace Immediate

/-- Operands with operators between them, in the order in which they are applied. -/
inductive OpTree where
  | leaf (code : Code)
  | node (op : BinaryOp) (left right : OpTree)

namespace OpTree

/-- The instructions of a tree: those of both sides, then the operator. -/
def code : OpTree → Code
  | .leaf code => code
  | .node op left right => left.code ++ right.code ++ [.binary op]

/-- The operands from left to right. -/
def operands : OpTree → List Code
  | .leaf code => [code]
  | .node _ left right => left.operands ++ right.operands

/-- The operators from left to right. -/
def operators : OpTree → List BinaryOp
  | .leaf _ => []
  | .node op left right => left.operators ++ op :: right.operators

/-- The root is the rightmost of the loosest operators, and both sides are built the same way. -/
def Grouped : OpTree → Prop
  | .leaf _ => True
  | .node op left right =>
    (∀ other ∈ left.operators, other.precedence ≤ op.precedence) ∧
      (∀ other ∈ right.operators, other.precedence < op.precedence) ∧ left.Grouped ∧ right.Grouped

/-! ### There is only one tree -/

theorem length_operands (tree : OpTree) : tree.operands.length = tree.operators.length + 1 := by
  induction tree with
  | leaf code => rfl
  | node op left right ihLeft ihRight =>
    simp only [operands, operators, List.length_append, List.length_cons, ihLeft, ihRight]
    omega

private theorem split_of_prefix {before between behind behind' : List BinaryOp} {op op' : BinaryOp}
    (back : op :: behind = between ++ op' :: behind')
    (last : ∀ other ∈ behind, other.precedence < op.precedence)
    (looser' : ∀ other ∈ before ++ between, other.precedence ≤ op'.precedence) :
    before = before ++ between ∧ op = op' ∧ behind = behind' := by
  cases between with
  | nil => simpa using back
  | cons x between =>
    simp only [List.cons_append, List.cons.injEq] at back
    have atMost := looser' op (by simp [back.1])
    have less := last op' (by simp [back.2])
    omega

/-- A list is split in one way only at the rightmost of its loosest operators. -/
theorem split_unique {before before' behind behind' : List BinaryOp} {op op' : BinaryOp}
    (equal : before ++ op :: behind = before' ++ op' :: behind')
    (looser : ∀ other ∈ before, other.precedence ≤ op.precedence)
    (last : ∀ other ∈ behind, other.precedence < op.precedence)
    (looser' : ∀ other ∈ before', other.precedence ≤ op'.precedence)
    (last' : ∀ other ∈ behind', other.precedence < op'.precedence) :
    before = before' ∧ op = op' ∧ behind = behind' := by
  rcases List.append_eq_append_iff.mp equal with ⟨between, rfl, back⟩ | ⟨between, rfl, back⟩
  · exact split_of_prefix back last looser'
  · obtain ⟨front, sameOp, sameBehind⟩ := split_of_prefix back last' looser
    exact ⟨front.symm, sameOp.symm, sameBehind.symm⟩

/-- Operands and operators are grouped in one way only. -/
theorem grouped_unique {tree other : OpTree} (grouped : tree.Grouped) (grouped' : other.Grouped)
    (operands : tree.operands = other.operands) (operators : tree.operators = other.operators) :
    tree = other := by
  induction tree generalizing other with
  | leaf code =>
    cases other with
    | leaf code' => simpa [OpTree.operands] using operands
    | node op' left' right' => simp [OpTree.operators] at operators
  | node op left right ihLeft ihRight =>
    cases other with
    | leaf code' => simp [OpTree.operators] at operators
    | node op' left' right' =>
      obtain ⟨looser, last, groupedLeft, groupedRight⟩ := grouped
      obtain ⟨looser', last', groupedLeft', groupedRight'⟩ := grouped'
      obtain ⟨sameLeft, rfl, sameRight⟩ := split_unique operators looser last looser' last'
      -- The operators are split the same way, and a side with as many has as many operands.
      have length : left.operands.length = left'.operands.length := by
        rw [length_operands, length_operands, sameLeft]
      obtain ⟨operandsLeft, operandsRight⟩ := List.append_inj operands length
      rw [ihLeft groupedLeft groupedLeft' operandsLeft sameLeft,
        ihRight groupedRight groupedRight' operandsRight sameRight]

/-! ### The open edge -/

/-- The right edge of an open tree: operators that wait with their left sides, innermost first. -/
abbrev Edge := List (BinaryOp × OpTree)

/-- Closes an edge: each operator takes its left side and what stands behind it. -/
def close (behind : OpTree) : Edge → OpTree
  | [] => behind
  | (op, left) :: edge => close (.node op left behind) edge

namespace Edge

/-- The operators of an edge that are applied before one that follows. -/
def ready (edge : Edge) (op : BinaryOp) : Edge :=
  edge.takeWhile (·.1.precedence ≤ op.precedence)

/-- The operators of an edge that wait for one that follows. -/
def held (edge : Edge) (op : BinaryOp) : Edge :=
  edge.dropWhile (·.1.precedence ≤ op.precedence)

/-- The instructions written before the last operand. -/
def written (edge : Edge) : Code := edge.reverse.flatMap (·.2.code)

/-- The operands before the last one. -/
def operands (edge : Edge) : List Code := edge.reverse.flatMap (·.2.operands)

/-- The operators before the last operand. -/
def operators (edge : Edge) : List BinaryOp :=
  edge.reverse.flatMap fun waits => waits.2.operators ++ [waits.1]

/-- Further in, operators bind tighter, and none is looser than the one whose left side it is in. -/
structure Ordered (edge : Edge) : Prop where
  tighter : edge.Pairwise fun inner outer => inner.1.precedence < outer.1.precedence
  grouped : ∀ waits ∈ edge, waits.2.Grouped
  left : ∀ waits ∈ edge, ∀ op ∈ waits.2.operators, op.precedence ≤ waits.1.precedence

variable {edge : Edge}

/-- What stands at an edge stands at its outer part, then at its inner one. -/
theorem flatMap_held_ready {β : Type} (f : BinaryOp × OpTree → List β) (edge : Edge)
    (op : BinaryOp) :
    edge.reverse.flatMap f =
      (edge.held op).reverse.flatMap f ++ (edge.ready op).reverse.flatMap f := by
  rw [← List.flatMap_append, ← List.reverse_append, ready, held, List.takeWhile_append_dropWhile]

theorem precedence_of_ready {op : BinaryOp} {waits : BinaryOp × OpTree}
    (member : waits ∈ edge.ready op) : waits.1.precedence ≤ op.precedence := by
  simpa using List.all_eq_true.mp List.all_takeWhile waits member

theorem Ordered.of_sublist {part : Edge} (ordered : edge.Ordered) (sublist : part.Sublist edge) :
    part.Ordered where
  tighter := ordered.tighter.sublist sublist
  grouped waits member := ordered.grouped waits (sublist.subset member)
  left waits member := ordered.left waits (sublist.subset member)

theorem Ordered.precedence_of_held (ordered : edge.Ordered) {op : BinaryOp}
    {waits : BinaryOp × OpTree} (member : waits ∈ edge.held op) :
    op.precedence < waits.1.precedence := by
  have tighter := (ordered.of_sublist (List.dropWhile_sublist _) : (edge.held op).Ordered).tighter
  cases equal : edge.held op with
  | nil => simp [equal] at member
  | cons first others =>
    have looser : op.precedence < first.1.precedence := by
      have stopped := List.head?_dropWhile_not
        (fun waits : BinaryOp × OpTree => decide (waits.1.precedence ≤ op.precedence)) edge
      rw [← held, equal] at stopped
      simpa using stopped
    rw [equal] at member tighter
    rcases List.mem_cons.mp member with rfl | outer
    · exact looser
    · exact Nat.lt_trans looser ((List.pairwise_cons.mp tighter).1 waits outer)

end Edge

/-- The tree of operators and operands that follow an operand at an edge. -/
def grow (edge : Edge) (last : Code) : List (BinaryOp × Code) → OpTree
  | [] => close (.leaf last) edge
  | (op, operand) :: rest =>
    grow ((op, close (.leaf last) (edge.ready op)) :: edge.held op) operand rest

theorem code_close (behind : OpTree) (edge : Edge) :
    (close behind edge).code = edge.written ++ behind.code ++ (edge.map Prod.fst).map .binary := by
  induction edge generalizing behind with
  | nil => simp [close, Edge.written]
  | cons waits edge ih => simp [close, ih, Edge.written, code]

theorem operands_close (behind : OpTree) (edge : Edge) :
    (close behind edge).operands = edge.operands ++ behind.operands := by
  induction edge generalizing behind with
  | nil => simp [close, Edge.operands]
  | cons waits edge ih => simp [close, ih, Edge.operands, operands]

theorem operators_close (behind : OpTree) (edge : Edge) :
    (close behind edge).operators = edge.operators ++ behind.operators := by
  induction edge generalizing behind with
  | nil => simp [close, Edge.operators]
  | cons waits edge ih => simp [close, ih, Edge.operators, operators]

theorem grouped_close {behind : OpTree} {edge : Edge} (ordered : edge.Ordered)
    (grouped : behind.Grouped)
    (tighter : ∀ op ∈ behind.operators, ∀ waits ∈ edge, op.precedence < waits.1.precedence) :
    (close behind edge).Grouped := by
  induction edge generalizing behind with
  | nil => exact grouped
  | cons waits edge ih =>
    obtain ⟨op, left⟩ := waits
    obtain ⟨first, others⟩ := List.pairwise_cons.mp ordered.tighter
    have left := ordered.left (op, left) List.mem_cons_self
    have right := fun inner member => tighter inner member (op, _) List.mem_cons_self
    apply ih
    · exact ⟨others, fun waits member => ordered.grouped waits (List.mem_cons_of_mem _ member),
        fun waits member => ordered.left waits (List.mem_cons_of_mem _ member)⟩
    · exact ⟨left, right, ordered.grouped (op, _) List.mem_cons_self, grouped⟩
    · intro inner member outer inEdge
      have loose : op.precedence < outer.1.precedence := first outer inEdge
      simp only [operators, List.mem_append, List.mem_cons] at member
      rcases member with inLeft | rfl | inRight
      · exact Nat.lt_of_le_of_lt (left inner inLeft) loose
      · exact loose
      · exact Nat.lt_trans (right inner inRight) loose

/-! ### What grows at the edge -/

section
variable (edge : Edge) (last : Code) (rest : List (BinaryOp × Code))

/-- The code is the one that is written operator by operator. -/
theorem code_grow : (grow edge last rest).code =
    Code.weave (edge.written ++ last) (edge.map Prod.fst) rest := by
  induction rest generalizing edge last with
  | nil => simp [grow, code_close, Code.weave, code]
  | cons operation rest ih =>
    obtain ⟨op, operand⟩ := operation
    have parted : edge.written = (edge.held op).written ++ (edge.ready op).written :=
      Edge.flatMap_held_ready _ edge op
    simp only [grow, ih, Code.weave, parted, Edge.ready, Edge.held]
    simp [Edge.written, code_close, code, List.takeWhile_map, List.dropWhile_map, Function.comp_def]

theorem operands_grow :
    (grow edge last rest).operands = edge.operands ++ last :: rest.map Prod.snd := by
  induction rest generalizing edge last with
  | nil => simp [grow, operands_close, operands]
  | cons operation rest ih =>
    obtain ⟨op, operand⟩ := operation
    have parted : edge.operands = (edge.held op).operands ++ (edge.ready op).operands :=
      Edge.flatMap_held_ready _ edge op
    simp only [grow, ih, parted]
    simp [Edge.operands, operands_close, operands]

theorem operators_grow :
    (grow edge last rest).operators = edge.operators ++ rest.map Prod.fst := by
  induction rest generalizing edge last with
  | nil => simp [grow, operators_close, operators]
  | cons operation rest ih =>
    obtain ⟨op, operand⟩ := operation
    have parted : edge.operators = (edge.held op).operators ++ (edge.ready op).operators :=
      Edge.flatMap_held_ready _ edge op
    simp only [grow, ih, parted]
    simp [Edge.operators, operators_close, operators]

theorem grouped_grow {edge : Edge} (ordered : edge.Ordered) : (grow edge last rest).Grouped := by
  induction rest generalizing edge last with
  | nil =>
    apply grouped_close ordered
    · trivial
    · simp [operators]
  | cons operation rest ih =>
    obtain ⟨op, operand⟩ := operation
    have inner : (edge.ready op).Ordered := ordered.of_sublist (List.takeWhile_sublist _)
    have outer : (edge.held op).Ordered := ordered.of_sublist (List.dropWhile_sublist _)
    -- What is ready becomes the left side of the operator, which from now on waits innermost.
    apply ih
    constructor
    · apply List.pairwise_cons.mpr
      exact ⟨fun waits member => ordered.precedence_of_held member, outer.tighter⟩
    · intro waits member
      rcases List.mem_cons.mp member with rfl | member
      · exact grouped_close inner trivial (by simp [operators])
      · exact outer.grouped waits member
    · intro waits member
      rcases List.mem_cons.mp member with rfl | member
      · -- The last operand is a leaf, so every operator of the new left side was at the edge.
        intro other inLeft
        simp only [operators_close, operators, List.append_nil, Edge.operators, List.mem_flatMap,
          List.mem_reverse, List.mem_append, List.mem_singleton] at inLeft
        obtain ⟨waits, member, inLeft | rfl⟩ := inLeft
        · have within := inner.left waits member other inLeft
          exact Nat.le_trans within (Edge.precedence_of_ready member)
        · exact Edge.precedence_of_ready member
      · exact outer.left waits member

end

/-! ### The tree of a chain -/

section
variable (first : Code) (rest : List (BinaryOp × Code))

/-- The tree of operands with operators between them. -/
def ofChain : OpTree := grow [] first rest

theorem code_ofChain : (ofChain first rest).code = Code.ofChain first rest :=
  code_grow [] first rest

theorem operands_ofChain : (ofChain first rest).operands = first :: rest.map Prod.snd :=
  operands_grow [] first rest

theorem operators_ofChain : (ofChain first rest).operators = rest.map Prod.fst :=
  operators_grow [] first rest

theorem grouped_ofChain : (ofChain first rest).Grouped :=
  grouped_grow first rest ⟨.nil, nofun, nofun⟩

example (a b c d : Code) : ofChain a [(.sub, b), (.mul, c), (.sub, d)] =
    .node .sub (.node .sub (.leaf a) (.node .mul (.leaf b) (.leaf c))) (.leaf d) := rfl

/-- The tree of a chain is the only one that groups its operands and operators. -/
theorem eq_ofChain_iff (tree : OpTree) :
    (tree.Grouped ∧ tree.operands = first :: rest.map Prod.snd ∧
      tree.operators = rest.map Prod.fst) ↔ tree = ofChain first rest := by
  constructor
  · rintro ⟨grouped, operands, operators⟩
    apply grouped_unique grouped (grouped_ofChain first rest)
    · rw [operands, operands_ofChain]
    · rw [operators, operators_ofChain]
  · rintro rfl
    exact ⟨grouped_ofChain first rest, operands_ofChain first rest, operators_ofChain first rest⟩

end
end OpTree

namespace Expression

open Immediate.Parser

/-! ### What a term scans -/

/-- The reader of operands reads this code between two places. -/
def ScansOperand (o : CompileOptions) (c : Cursor) (code : Code) (c' : Cursor) : Prop :=
  ∃ fuel, (readOperand o fuel).run c = .ok (code, c')

/-- Operators are scanned with an operand behind each, until none follows. Where a range ends the
term, it also ends before the first operator that is one. -/
inductive ScansOperations (o : CompileOptions) (stop : Bool) :
    Cursor → List (BinaryOp × Code) → Cursor → Prop where
  | ended {c : Cursor} (ended : operatorAt? false c.skipBlanks = none) :
      ScansOperations o stop c [] c.skipBlanks
  | beforeRange {c : Cursor} (stops : stop = true)
      (range : operatorAt? false c.skipBlanks = some .range) :
      ScansOperations o stop c [] c.skipBlanks
  | operation {c m c' : Cursor} {op : BinaryOp} {code : Code} {rest : List (BinaryOp × Code)}
      (operator : operatorAt? false c.skipBlanks = some op) (goesOn : ¬(stop = true ∧ op = .range))
      (operand : ScansOperand o (c.skipBlanks.advance op.symbol.length) code m)
      (operations : ScansOperations o stop m rest c') :
      ScansOperations o stop c ((op, code) :: rest) c'

/-- An operand and operations behind it are scanned. -/
def ScansTerm (o : CompileOptions) (stop : Bool) (c : Cursor) (first : Code)
    (rest : List (BinaryOp × Code)) (c' : Cursor) : Prop :=
  ∃ m, ScansOperand o c first m ∧ ScansOperations o stop m rest c'

theorem operatorAt?_eq (stop : Bool) (c : Cursor) :
    operatorAt? stop c = (operatorAt? false c).filter fun op => !(stop && op = .range) := by
  simp [operatorAt?, Option.filter_filter]

variable {o : CompileOptions} {stop : Bool} {c c' k : Cursor}

/-- A range is no operator where it ends the term, and no other operator ends it. -/
theorem operatorAt?_of_goesOn {op : BinaryOp} (operator : operatorAt? false c = some op)
    (goesOn : ¬(stop = true ∧ op = .range)) : operatorAt? stop c = some op := by
  rw [operatorAt?_eq, operator, Option.filter_some, if_pos]
  cases stop with
  | false => rfl
  | true => simpa using goesOn

theorem scansOperations_of_run {fuel : Nat} {rest : List (BinaryOp × Code)}
    (run : (readOperations o stop fuel).run c = .ok (rest, c')) :
    ScansOperations o stop c rest c' := by
  induction fuel generalizing c rest with
  | zero => cases run
  | succ fuel ih =>
    rw [readOperations_succ, run_skipBlanks_bind, run_get_bind] at run
    cases operator : operatorAt? false c.skipBlanks with
    | none =>
      rw [operatorAt?_eq, operator] at run
      cases run
      exact .ended operator
    | some op =>
      by_cases stops : stop = true ∧ op = .range
      · obtain ⟨rfl, rfl⟩ := stops
        rw [operatorAt?_eq, operator] at run
        cases run
        exact .beforeRange rfl operator
      · rw [operatorAt?_of_goesOn operator stops] at run
        dsimp only at run
        rw [run_set_bind] at run
        obtain ⟨operand, m, ranOperand, run⟩ := run_bind_eq_ok.mp run
        obtain ⟨others, k, ranOthers, run⟩ := run_bind_eq_ok.mp run
        cases run
        exact .operation operator stops ⟨fuel, ranOperand⟩ (ih ranOthers)

theorem scansTerm_of_run {fuel : Nat} {code : Code}
    (run : (readTerm o stop fuel).run c = .ok (code, c')) :
    ∃ first rest, ScansTerm o stop c first rest c' ∧ code = .ofChain first rest := by
  cases fuel with
  | zero => cases run
  | succ fuel =>
    obtain ⟨first, m, ranOperand, run⟩ := run_bind_eq_ok.mp run
    obtain ⟨rest, k, ranOperations, run⟩ := run_bind_eq_ok.mp run
    cases run
    exact ⟨first, rest, ⟨m, ⟨fuel, ranOperand⟩, scansOperations_of_run ranOperations⟩, rfl⟩

theorem reads_of_scansOperations {rest : List (BinaryOp × Code)}
    (scan : ScansOperations o stop c rest c') : Reads o c (.operations stop rest) c' := by
  induction scan with
  | ended ended => exact .noOperation (by rw [operatorAt?_eq, ended]; rfl)
  | beforeRange stops range =>
    subst stops
    exact .noOperation (by rw [operatorAt?_eq, range]; rfl)
  | operation operator goesOn operand _ ih =>
    obtain ⟨fuel, run⟩ := operand
    exact .operation (operatorAt?_of_goesOn operator goesOn) ((sound o fuel).operand run) ih

theorem run_of_scansTerm {first : Code} {rest : List (BinaryOp × Code)}
    (scan : ScansTerm o stop c first rest c') :
    ∃ fuel, (readTerm o stop fuel).run c = .ok (.ofChain first rest, c') := by
  obtain ⟨m, ⟨fuel, run⟩, operations⟩ := scan
  have term := Reads.term ((sound o fuel).operand run) (reads_of_scansOperations operations)
  exact ⟨8 * c.rest.length + 4, runsWith_of_reads term (Nat.le_refl _)⟩

/-- Whatever the fuel, the same operand is read. -/
theorem ScansOperand.unique {code code' : Code} (scan : ScansOperand o c code c')
    (scan' : ScansOperand o c code' k) : code = code' ∧ c' = k := by
  obtain ⟨fuel, run⟩ := scan
  obtain ⟨fuel', run'⟩ := scan'
  have enough (code : Code) : Enough c (.operand code) (8 * c.rest.length + 3) := Nat.le_refl _
  have same := (runsWith_of_reads ((sound o fuel).operand run) (enough code)).symm.trans
    (runsWith_of_reads ((sound o fuel').operand run') (enough code'))
  simpa using same

theorem ScansOperations.unique {rest rest' : List (BinaryOp × Code)}
    (scan : ScansOperations o stop c rest c') (scan' : ScansOperations o stop c rest' k) :
    rest = rest' ∧ c' = k := by
  induction scan generalizing rest' k with
  | ended ended =>
    cases scan' with
    | ended => exact ⟨rfl, rfl⟩
    | beforeRange => exact ⟨rfl, rfl⟩
    | operation operator => simp [ended] at operator
  | beforeRange stops range =>
    cases scan' with
    | ended => exact ⟨rfl, rfl⟩
    | beforeRange => exact ⟨rfl, rfl⟩
    | operation operator goesOn =>
      simp only [range, Option.some.injEq] at operator
      exact absurd ⟨stops, operator.symm⟩ goesOn
  | operation operator goesOn operand _ ih =>
    cases scan' with
    | ended ended => simp [ended] at operator
    | beforeRange stops range =>
      simp only [range, Option.some.injEq] at operator
      exact absurd ⟨stops, operator.symm⟩ goesOn
    | operation operator' _ operand' operations' =>
      simp only [operator, Option.some.injEq] at operator'
      subst operator'
      obtain ⟨rfl, rfl⟩ := operand.unique operand'
      obtain ⟨rfl, rfl⟩ := ih operations'
      exact ⟨rfl, rfl⟩

theorem ScansTerm.unique {first first' : Code} {rest rest' : List (BinaryOp × Code)}
    (scan : ScansTerm o stop c first rest c') (scan' : ScansTerm o stop c first' rest' k) :
    first = first' ∧ rest = rest' ∧ c' = k := by
  obtain ⟨m, operand, operations⟩ := scan
  obtain ⟨m', operand', operations'⟩ := scan'
  obtain ⟨rfl, rfl⟩ := operand.unique operand'
  exact ⟨rfl, operations.unique operations'⟩

/-- Where a range ends the term, what stands before the first range is scanned. -/
theorem ScansOperations.before_range {all : List (BinaryOp × Code)}
    (scan : ScansOperations o false c all c') :
    ∃ k, ScansOperations o true c (all.takeWhile (·.1 ≠ .range)) k := by
  induction scan with
  | ended ended => exact ⟨_, .ended ended⟩
  | beforeRange stops => cases stops
  | @operation c _ _ op code rest operator _ operand _ ih =>
    by_cases range : op = .range
    · subst range
      exact ⟨_, by simpa using .beforeRange rfl operator⟩
    · obtain ⟨k, operations⟩ := ih
      refine ⟨k, ?_⟩
      rw [List.takeWhile_cons_of_pos (by simpa using range)]
      exact .operation operator (fun stops => range stops.2) operand operations

/-- Reading a term succeeds exactly when one is scanned, and gives the code of the only tree that
groups what was scanned: on every level the root is the rightmost of the loosest operators. At each
place one term is scanned at most, and where a range ends it, the part before the first range. -/
theorem readTerm_iff_tree (o : CompileOptions) (stop : Bool) (c : Cursor) :
    (∀ code c', (∃ fuel, (readTerm o stop fuel).run c = .ok (code, c')) ↔
      ∃ first rest tree, ScansTerm o stop c first rest c' ∧ tree.code = code ∧
        ∀ other : OpTree, (other.Grouped ∧ other.operands = first :: rest.map Prod.snd ∧
          other.operators = rest.map Prod.fst) ↔ other = tree) ∧
      (∀ first rest c' first' rest' k, ScansTerm o stop c first rest c' →
        ScansTerm o stop c first' rest' k → first = first' ∧ rest = rest' ∧ c' = k) ∧
      ∀ first all c', ScansTerm o false c first all c' →
        ∃ k, ScansTerm o true c first (all.takeWhile (·.1 ≠ .range)) k := by
  refine ⟨fun code c' => ⟨?_, ?_⟩, fun _ _ _ _ _ _ scan scan' => scan.unique scan', ?_⟩
  · rintro ⟨fuel, run⟩
    obtain ⟨first, rest, scan, rfl⟩ := scansTerm_of_run run
    exact ⟨first, rest, OpTree.ofChain first rest, scan, OpTree.code_ofChain first rest,
      OpTree.eq_ofChain_iff first rest⟩
  · rintro ⟨first, rest, tree, scan, rfl, only⟩
    have same : OpTree.ofChain first rest = tree :=
      (only _).mp ((OpTree.eq_ofChain_iff first rest _).mpr rfl)
    rw [← same, OpTree.code_ofChain]
    exact run_of_scansTerm scan
  · rintro first all c' ⟨m, operand, operations⟩
    obtain ⟨k, before⟩ := operations.before_range
    exact ⟨k, m, operand, before⟩

/-- In an index that starts with `1 - 2 * 3 .. 4` the product is applied before the difference, and
the range ends the term. -/
theorem readTerm_iff_tree_before_range :
    let number (n : Int) : Instruction := .constant (some (.integer .int n))
    let code : Code := [number 1, number 2, number 3, .binary .mul, .binary .sub]
    let behind : Cursor := ⟨10, ['.', '.', ' ', '4']⟩
    (readTerm {} true 32).run (.start "1 - 2 * 3 .. 4") = .ok (code, behind) ∧
      ∃ first rest, ScansTerm {} true (.start "1 - 2 * 3 .. 4") first rest behind ∧
        ∃ tree : OpTree, tree.code = code ∧ tree.Grouped ∧
          tree.operands = first :: rest.map Prod.snd ∧ tree.operators = rest.map Prod.fst := by
  intro number code behind
  have run : (readTerm {} true 32).run (.start "1 - 2 * 3 .. 4") = .ok (code, behind) := by rfl
  obtain ⟨spells, -⟩ := readTerm_iff_tree {} true (.start "1 - 2 * 3 .. 4")
  obtain ⟨first, rest, tree, scan, spelled, only⟩ := (spells code behind).mp ⟨32, run⟩
  obtain ⟨grouped, operands, operators⟩ := (only tree).mpr rfl
  exact ⟨run, first, rest, scan, tree, spelled, grouped, operands, operators⟩

end Expression
end Immediate
