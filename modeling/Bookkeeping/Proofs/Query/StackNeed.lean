import Bookkeeping.Proofs.Query.Compilation
import Mathlib.Data.List.Basic

set_option autoImplicit false

/-! # Size and stack need of compiled queries

A compiled query has one instruction for every filter, every complement and every binary operation
that has both operands; nothing else leaves a trace in its program. The height that it announces is
the greatest one that its stack reaches, whatever item it is run on, and can be read off the tree:
the left operand of a binary operation is run first and leaves one value behind, above which the
right one needs its own room, `Query.stackNeed`.

The compiler counts heights while it writes instructions in the order of its tasks. Both its count
and a run are folds over the code of the query, so each is followed through the code by itself: the
count by `height_foldl_push` and `stackDepth_foldl_push`, the run by `peak`, the height that it
reaches. -/

namespace Bookkeeping

variable {α τ : Type}

/-! ## What a query needs -/

namespace Query

/-- The number of complements in a query. -/
def complements : Query α → Nat
  | leaf _ => 0
  | unary .identity q => q.complements
  | unary .complement q => q.complements + 1
  | binary _ l r => l.complements + r.complements
  | dangling _ l => l.complements

/-- The number of operations with two operands by one operator. -/
def joins (op : BinaryOperator) : Query α → Nat
  | leaf _ => 0
  | unary _ q => q.joins op
  | binary other l r => l.joins op + r.joins op + if other = op then 1 else 0
  | dangling _ l => l.joins op

/-- The height that the stack of a query needs. -/
def stackNeed : Query α → Nat
  | leaf _ => 1
  | unary _ q => q.stackNeed
  | binary _ l r => max l.stackNeed (r.stackNeed + 1)
  | dangling _ l => l.stackNeed

theorem stackNeed_pos (q : Query α) : 0 < q.stackNeed := by
  induction q with
  | leaf f => exact Nat.one_pos
  | unary op q ih => exact ih
  | binary op l r ihl ihr => exact Nat.lt_of_lt_of_le ihl (Nat.le_max_left _ _)
  | dangling op l ih => exact ih

end Query

namespace Instruction

/-- Whether an instruction tests a filter. -/
def isTest : Instruction τ → Bool
  | test _ => true
  | negate | combine _ => false

/-- Whether an instruction negates. -/
def isNegate : Instruction τ → Bool
  | negate => true
  | test _ | combine _ => false

/-- Whether an instruction combines two values by an operator. -/
def isCombine (op : BinaryOperator) : Instruction τ → Bool
  | combine other => other = op
  | test _ | negate => false

end Instruction

/-! ## The instructions of a program -/

/-- A program has the instructions of a query if it has one test for each filter, one negation for
    each complement, and one combination by its operator for each operation with two operands. -/
structure Query.HasInstructions (q : Query α) (program : List (Instruction τ)) : Prop where
  tests : program.countP Instruction.isTest = q.leaves.length
  negations : program.countP Instruction.isNegate = q.complements
  combinations (op : BinaryOperator) : program.countP (Instruction.isCombine op) = q.joins op

theorem Query.hasInstructions_code [Filter α τ] (q : Query α) : q.HasInstructions q.code := by
  induction q with
  | leaf f => exact ⟨rfl, rfl, fun _ => rfl⟩
  | unary op q ih =>
      cases op with
      | identity => exact ⟨ih.tests, ih.negations, ih.combinations⟩
      | complement =>
          refine ⟨?_, ?_, fun op => ?_⟩
          · rw [code, List.countP_append, ih.tests]
            rfl
          · rw [code, List.countP_append, ih.negations]
            rfl
          · rw [code, List.countP_append, ih.combinations]
            rfl
  | binary op l r ihl ihr =>
      refine ⟨?_, ?_, fun other => ?_⟩
      · rw [code, List.countP_append, List.countP_append, ihl.tests, ihr.tests, leaves,
          List.length_append]
        rfl
      · rw [code, List.countP_append, List.countP_append, ihl.negations, ihr.negations]
        rfl
      · rw [code, List.countP_append, List.countP_append, ihl.combinations, ihr.combinations,
          joins, List.countP_singleton]
        congr 1
        simp [Instruction.isCombine]
  | dangling op l ih => exact ⟨ih.tests, ih.negations, ih.combinations⟩

theorem Instruction.length_eq_countP (program : List (Instruction τ)) :
    program.length = program.countP isTest + program.countP isNegate +
      (program.countP (isCombine .union) + program.countP (isCombine .intersect) +
        program.countP (isCombine .subtract)) := by
  induction program with
  | nil => rfl
  | cons i rest ih =>
      simp only [List.length_cons, List.countP_cons, ih]
      cases i with
      | test accepts => simp [isTest, isNegate, isCombine]; omega
      | negate => simp [isTest, isNegate, isCombine]; omega
      | combine op => cases op <;> simp [isTest, isNegate, isCombine] <;> omega

/-! ## The height that is announced -/

namespace Query

/-- The compiler writes the code of its tasks one instruction after another. -/
theorem compileAll_eq_foldl [Filter α τ] (tasks : List (Task α τ)) (d : Draft τ) :
    compileAll tasks d = (tasks.flatMap Task.code).foldl Draft.push d := by
  fun_induction compileAll tasks d with
  | case1 d => rfl
  | case2 d f rest ih => exact ih
  | case3 d q rest ih => exact ih
  | case4 d q rest ih => simpa [Task.code, code] using ih
  | case5 d op l r rest ih => simpa [Task.code, code] using ih
  | case6 d op l rest ih => exact ih
  | case7 d i rest ih => exact ih

/-- The code of a query leaves one more value on the stack. -/
theorem height_foldl_push [Filter α τ] (q : Query α) (d : Draft τ) :
    (q.code.foldl Draft.push d).height = d.height + 1 := by
  induction q generalizing d with
  | leaf f => rfl
  | unary op q ih =>
      cases op with
      | identity => exact ih d
      | complement =>
          rw [code, List.foldl_append]
          exact ih d
  | binary op l r ihl ihr =>
      rw [code, List.foldl_append, List.foldl_append]
      show ((r.code.foldl Draft.push (l.code.foldl Draft.push d)).height) - 1 = _
      rw [ihr, ihl, Nat.add_sub_cancel]
  | dangling op l ih => exact ih d

/-- The code of a query raises the announced height to what the query needs above the values that
    are there already. -/
theorem stackDepth_foldl_push [Filter α τ] (q : Query α) (d : Draft τ) :
    (q.code.foldl Draft.push d).stackDepth = max d.stackDepth (d.height + q.stackNeed) := by
  induction q generalizing d with
  | leaf f => rfl
  | unary op q ih =>
      cases op with
      | identity => exact ih d
      | complement =>
          rw [code, List.foldl_append]
          exact ih d
  | binary op l r ihl ihr =>
      rw [code, List.foldl_append, List.foldl_append]
      show (r.code.foldl Draft.push (l.code.foldl Draft.push d)).stackDepth = _
      rw [ihr, ihl, height_foldl_push, stackNeed]
      omega
  | dangling op l ih => exact ih d

theorem stackDepth_compile [Filter α τ] (q : Query α) :
    (q.compile : Predicate τ).stackDepth = q.stackNeed := by
  have hcode : compileAll [Task.compile q] (⟨#[], 0, 0⟩ : Draft τ) =
      q.code.foldl Draft.push ⟨#[], 0, 0⟩ := by
    rw [compileAll_eq_foldl, List.flatMap_singleton, Task.code]
  rw [compile, hcode]
  show (q.code.foldl Draft.push (⟨#[], 0, 0⟩ : Draft τ)).stackDepth = _
  rw [stackDepth_foldl_push, Nat.zero_add, Nat.zero_max]

end Query

/-! ## The height that is reached -/

namespace Predicate

/-- The stacks of a run, before the first instruction and after each one. -/
def valueStacks (p : Predicate τ) (item : τ) : List (List Bool) :=
  p.program.toList.scanl (step item) []

/-- The height that the stack reaches on a run. -/
def peak (item : τ) : List (Instruction τ) → List Bool → Nat
  | [], stack => stack.length
  | i :: rest, stack => max stack.length (peak item rest (step item stack i))

theorem length_le_peak (item : τ) (program : List (Instruction τ)) (stack : List Bool) :
    stack.length ≤ peak item program stack := by
  cases program with
  | nil => exact Nat.le_refl _
  | cons i rest => exact Nat.le_max_left _ _

theorem peak_append (item : τ) (front back : List (Instruction τ)) (stack : List Bool) :
    peak item (front ++ back) stack =
      max (peak item front stack) (peak item back (front.foldl (step item) stack)) := by
  induction front generalizing stack with
  | nil => exact (Nat.max_eq_right (length_le_peak item back stack)).symm
  | cons i rest ih => rw [List.cons_append, peak, ih, peak, List.foldl_cons, Nat.max_assoc]

/-- The peak is the greatest height among the stacks of the run. -/
theorem max?_length_scanl (item : τ) (program : List (Instruction τ)) (stack : List Bool) :
    ((program.scanl (step item) stack).map List.length).max? = some (peak item program stack) := by
  induction program generalizing stack with
  | nil => rfl
  | cons i rest ih =>
      rw [List.scanl_cons, List.map_cons, List.max?_cons, ih]
      rfl

/-- The code of a query reaches just as high above the stack as the query needs. -/
theorem peak_code [Filter α τ] (item : τ) (q : Query α) (stack : List Bool) :
    peak item q.code stack = stack.length + q.stackNeed := by
  have hrun (q : Query α) (stack : List Bool) : q.code.foldl (step item) stack =
      q.holds Filter.accepts item :: stack :=
    foldl_step_of_runFrom? (q.runFrom?_code item stack)
  induction q generalizing stack with
  | leaf f => exact Nat.max_eq_right (Nat.le_succ _)
  | unary op q ih =>
      cases op with
      | identity => exact ih stack
      | complement =>
          have hneed := q.stackNeed_pos
          rw [Query.code, peak_append, ih, hrun]
          simp only [peak, step, List.length_cons, Query.stackNeed]
          omega
  | binary op l r ihl ihr =>
      -- the right operand runs above the value of the left one
      have hneed := r.stackNeed_pos
      rw [Query.code, peak_append, peak_append, List.foldl_append, ihl, hrun, ihr, hrun]
      simp only [peak, step, pop, List.length_cons, Query.stackNeed]
      omega
  | dangling op l ih => exact ih stack

end Predicate

/-- The program of a query has one instruction for every filter, every complement and every
    operation with two operands, and the height that it announces is what the query needs and the
    greatest one that the stack reaches, whatever item it is run on. -/
theorem Query.compile_announces [Filter α τ] (q : Query α) :
    q.HasInstructions (q.compile : Predicate τ).program.toList ∧
      (q.compile : Predicate τ).size = q.leaves.length + q.complements +
        (q.joins .union + q.joins .intersect + q.joins .subtract) ∧
      (q.compile : Predicate τ).stackDepth = q.stackNeed ∧
      ∀ item : τ,
        ((q.compile.valueStacks item).map List.length).max? = some q.compile.stackDepth := by
  have hcode := q.hasInstructions_code (τ := τ)
  refine ⟨?_, ?_, q.stackDepth_compile, fun item => ?_⟩
  · rw [program_compile]
    exact hcode
  · have hlength := Instruction.length_eq_countP (q.code (τ := τ))
    rw [hcode.tests, hcode.negations, hcode.combinations, hcode.combinations,
      hcode.combinations] at hlength
    rw [Predicate.size, ← Array.length_toList, program_compile, hlength]
  · rw [Predicate.valueStacks, Predicate.max?_length_scanl, program_compile, Predicate.peak_code,
      stackDepth_compile, List.length_nil, Nat.zero_add]

end Bookkeeping
