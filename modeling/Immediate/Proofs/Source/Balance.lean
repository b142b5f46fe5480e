import Immediate.Proofs.PathCode
import Immediate.Proofs.Source.Paths
import Immediate.Proofs.Source.Precedence
/-! What is compiled is balanced. Every phrase is read into code that leaves one operand on top of
whatever was there before it, so the instruction behind some phrases finds as many operands as it
takes. -/
namespace Immediate

namespace Code

/-- Code leaves a number of operands on top of those that were there. -/
def Pushes (count : Nat) (code : Code) : Prop :=
  ∀ depth, depthFrom depth code = some (depth + count)

theorem depthFrom_append (depth : Nat) (code more : Code) :
    depthFrom depth (code ++ more) = (depthFrom depth code).bind (depthFrom · more) := by
  induction code generalizing depth with
  | nil => rfl
  | cons i rest ih =>
    simp only [List.cons_append, depthFrom]
    split
    · exact ih _
    · rfl

theorem pushes_nil : Pushes 0 [] := fun _ => rfl

theorem Pushes.append {count further : Nat} {code more : Code} (first : Pushes count code)
    (second : Pushes further more) : Pushes (count + further) (code ++ more) := by
  intro depth
  rw [depthFrom_append, first depth, Option.bind_some, second (depth + count)]
  congr 1
  omega

/-- An instruction behind the code of its operands leaves one result. -/
theorem Pushes.instruction {i : Instruction} {operands : Code}
    (pushes : Pushes i.consumes operands) : Pushes 1 (operands ++ [i]) := by
  intro depth
  rw [depthFrom_append, pushes depth, Option.bind_some]
  simp [depthFrom, Instruction.produces]

theorem pushes_flatten {codes : List Code} (each : ∀ code ∈ codes, Pushes 1 code) :
    Pushes codes.length codes.flatten := by
  induction codes with
  | nil => exact pushes_nil
  | cons code rest ih =>
    have first := each code List.mem_cons_self
    have others := ih fun other member => each other (List.mem_cons_of_mem _ member)
    simpa [Nat.add_comm] using first.append others

theorem Pushes.depth? {code : Code} (one : Pushes 1 code) : code.depth? = some 1 := one 0

end Code

open Code

/-- A tree leaves one result when each of its operands does. -/
theorem OpTree.pushes_code {tree : OpTree} (each : ∀ code ∈ tree.operands, Pushes 1 code) :
    Pushes 1 tree.code := by
  induction tree with
  | leaf code => exact each code List.mem_cons_self
  | node op left right ihLeft ihRight =>
    have first := ihLeft fun code member => each code (List.mem_append_left _ member)
    have second := ihRight fun code member => each code (List.mem_append_right _ member)
    exact Pushes.instruction (i := .binary op) (first.append second)

/-- A step takes what was read so far and leaves what it reads of it. -/
theorem Accessor.pushes_code {a : Accessor} (each : ∀ code ∈ a.codes, Pushes 1 code) {target : Code}
    (one : Pushes 1 target) : Pushes 1 (target ++ a.code) := by
  cases a with
  | allContents => exact one.instruction (i := .allContents)
  | entryKey => exact one.instruction (i := .call .key 1)
  | entryValue => exact one.instruction (i := .call .value 1)
  | index inner =>
    have both := one.append (each inner (by simp [codes]))
    simpa [code] using both.instruction (i := .index)
  | optionalIndex inner =>
    have both := one.append (each inner (by simp [codes]))
    simpa [code] using both.instruction (i := .optionalIndex)
  | range first last =>
    have low := one.append (each first (by simp [codes]))
    have all := low.append (each last (by simp [codes]))
    simpa [code] using all.instruction (i := .rangeIndex)

theorem Accessor.pushes_flatMap {accessors : List Accessor}
    (each : ∀ a ∈ accessors, ∀ code ∈ a.codes, Pushes 1 code) {target : Code}
    (one : Pushes 1 target) : Pushes 1 (target ++ accessors.flatMap Accessor.code) := by
  induction accessors generalizing target with
  | nil => simpa using one
  | cons a rest ih =>
    have read := a.pushes_code (each a List.mem_cons_self) one
    have others := fun b member => each b (List.mem_cons_of_mem _ member)
    simpa using ih others read

namespace Expression

/-- The code of every phrase leaves one operand, and so does each part of what consists of parts. -/
def Phrase.Balanced : Phrase → Prop
  | .term _ code | .operand code | .value code | .bare code => Pushes 1 code
  | .operations _ rest => ∀ code ∈ rest.map Prod.snd, Pushes 1 code
  | .indices accessors => ∀ a ∈ accessors, ∀ code ∈ a.codes, Pushes 1 code
  | .index a => ∀ code ∈ a.codes, Pushes 1 code
  | .elements codes | .arguments codes => ∀ code ∈ codes, Pushes 1 code

theorem pushes_constant (slot : Slot) : Pushes 1 [.constant slot] :=
  pushes_nil.instruction (i := .constant slot)

theorem pushes_variable (id : VariableId) : Pushes 1 [.variable id] :=
  pushes_nil.instruction (i := .variable id)

theorem balanced_of_reads {o : CompileOptions} {c c' : Cursor} {phrase : Phrase}
    (reads : Reads o c phrase c') : phrase.Balanced := by
  induction reads with
  | @term _ _ _ _ first rest _ _ ihFirst ihRest =>
    have each : ∀ code ∈ (OpTree.ofChain first rest).operands, Pushes 1 code := by
      rw [OpTree.operands_ofChain]
      exact List.forall_mem_cons.mpr ⟨ihFirst, ihRest⟩
    -- The operators were moved behind the operands they wait for, but the tree is known.
    have tree := OpTree.pushes_code each
    rwa [OpTree.code_ofChain] at tree
  | noOperation => exact nofun
  | operation _ _ _ ihOperand ihRest => exact List.forall_mem_cons.mpr ⟨ihOperand, ihRest⟩
  | operand _ _ ihValue ihIndices => exact Accessor.pushes_flatMap ihIndices ihValue
  | noIndex => exact nofun
  | furtherIndex _ _ ihIndex ihIndices => exact List.forall_mem_cons.mpr ⟨ihIndex, ihIndices⟩
  | allContents => exact nofun
  | index _ _ _ _ _ _ ihTerm => exact List.forall_mem_cons.mpr ⟨ihTerm, nofun⟩
  | optionalIndex _ _ _ _ _ _ ihTerm => exact List.forall_mem_cons.mpr ⟨ihTerm, nofun⟩
  | range _ _ _ _ _ _ ihLow ihHigh =>
    exact List.forall_mem_cons.mpr ⟨ihLow, List.forall_mem_cons.mpr ⟨ihHigh, nofun⟩⟩
  | value _ ihBare => exact ihBare
  | literal => exact pushes_constant _
  | negation _ _ _ ihValue => exact ihValue.instruction (i := .unary .negate)
  | cast _ _ _ ihValue => exact ihValue.instruction (i := .cast _)
  | parens _ _ _ _ ihTerm => exact ihTerm
  | noElements => exact pushes_nil.instruction (i := .list 0)
  | entry _ _ _ _ _ _ ihKey ihValue => exact (ihKey.append ihValue).instruction (i := .entry)
  | @list _ _ _ _ _ codes _ _ _ _ _ _ ihFirst ihRest =>
    have all := pushes_flatten (List.forall_mem_cons.mpr ⟨ihFirst, ihRest⟩)
    exact all.instruction (i := .list (codes.length + 1))
  | noElement => exact nofun
  | element _ _ _ ihTerm ihRest => exact List.forall_mem_cons.mpr ⟨ihTerm, ihRest⟩
  | noArguments => exact pushes_nil.instruction (i := .call _ 0)
  | @call _ _ _ codes b _ _ _ _ _ _ ihArguments =>
    exact (pushes_flatten ihArguments).instruction (i := .call b codes.length)
  | lastArgument _ _ _ ihTerm => exact List.forall_mem_cons.mpr ⟨ihTerm, nofun⟩
  | argument _ _ _ ihTerm ihRest => exact List.forall_mem_cons.mpr ⟨ihTerm, ihRest⟩
  | null => exact pushes_constant none
  | loaded => exact pushes_variable _

end Expression

/-- Compiled code leaves one operand on an empty stack, whether it is computed ahead or not. So do
each index and each bound of a compiled path, and the code that reads the path. -/
theorem balanced_of_compiled (o : CompileOptions) (s : String) :
    (∀ code, Expression.parse o s = .ok code → code.depth? = some 1) ∧
      (∀ e, Expression.compile o s = .ok e → e.code.depth? = some 1) ∧
      ∀ q, Path.parse o s = .ok q →
        (∀ a ∈ q.accessors, ∀ code ∈ a.codes, code.depth? = some 1) ∧ q.code.depth? = some 1 := by
  have parsed {code : Code} (read : Expression.parse o s = .ok code) : code.depth? = some 1 := by
    obtain ⟨c', reads, -⟩ := Expression.parse_eq_ok.mp read
    exact (Expression.balanced_of_reads reads : Pushes 1 code).depth?
  refine ⟨fun code => parsed, fun e compiled => ?_, fun q read => ⟨?_, ?_⟩⟩
  · obtain ⟨code, read, equal⟩ := Outcome.bind_eq_ok.mp compiled
    cases equal
    have ahead : code.fold.depth? = some 1 := by
      rcases code.fold_cases with same | ⟨slot, constant, -⟩
      · rw [same]
        exact parsed read
      · rw [constant]
        rfl
    split
    · exact ahead
    · exact parsed read
  · obtain ⟨wraps, indices, m, c', accessors, base, behind, -⟩ := Path.parse_eq_ok.mp read
    intro a member code inside
    rw [accessors] at member
    rcases List.mem_append.mp member with wrap | index
    · rcases Path.wrap_of_readsBase base a wrap with rfl | rfl <;> cases inside
    · exact (Expression.balanced_of_reads behind a index code inside).depth?
  · exact parsed (Path.expression_of_parse read)

/-- The code of `m[1 + 2]` leaves one operand, and so does its index. -/
theorem balanced_of_compiled_indexed :
    let number (n : Int) : Instruction := .constant (some (.integer .int n))
    let index : Code := [number 1, number 2, .binary .add]
    let q : Path := ⟨⟨"global", "m"⟩, [.index index]⟩
    Expression.parse {} "m[1 + 2]" = .ok q.code ∧ Path.parse {} "m[1 + 2]" = .ok q ∧
      q.code.depth? = some 1 ∧ index.depth? = some 1 := by
  intro number index q
  have spelled : Expression.parse {} "m[1 + 2]" = .ok q.code := by rfl
  have read : Path.parse {} "m[1 + 2]" = .ok q := by rfl
  obtain ⟨parsed, -, path⟩ := balanced_of_compiled {} "m[1 + 2]"
  refine ⟨spelled, read, parsed q.code spelled, ?_⟩
  exact (path q read).1 (.index index) List.mem_cons_self index List.mem_cons_self

end Immediate
