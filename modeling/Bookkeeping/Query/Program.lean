import Bookkeeping.Query.Basic

set_option autoImplicit false

/-! # Queries as programs

A query compiles to a flat program in postfix order. A test pushes a truth value, an operator
takes its operands off the stack and pushes its result, so a run needs a stack of values as high
as the query is wide, and no recursion.

The compiler works through a list of pending tasks and keeps count of the height that the stack
will have, so a program announces how high the stack grows. -/

namespace Bookkeeping

variable {α τ : Type}

/-! ## Programs -/

/-- One instruction, run on an item of type `τ`. -/
inductive Instruction (τ : Type) where
  /-- Pushes the result of a filter. -/
  | test (accepts : τ → Bool)
  /-- Negates the top of the stack. -/
  | negate
  /-- Combines the two values on top, the right operand being the upper one. -/
  | combine (op : BinaryOperator)

/-- A compiled query. -/
structure Predicate (τ : Type) where
  program : Array (Instruction τ)
  /-- The height that the stack reaches. -/
  stackDepth : Nat

namespace Predicate

/-- The predicate that accepts everything, by the empty program. -/
def always : Predicate τ := ⟨#[], 0⟩

/-- The number of instructions. -/
def size (p : Predicate τ) : Nat := p.program.size

/-- Whether the program is the empty one. -/
def isEmpty (p : Predicate τ) : Bool := p.program.isEmpty

/-- The top of the stack and what lies below; an empty stack accepts. -/
def pop : List Bool → Bool × List Bool
  | [] => (true, [])
  | top :: rest => (top, rest)

/-- The stack after one instruction. -/
def step (item : τ) (stack : List Bool) : Instruction τ → List Bool
  | .test accepts => accepts item :: stack
  | .negate =>
      match stack with
      | [] => []
      | top :: rest => (!top) :: rest
  | .combine op =>
      let (right, below) := pop stack
      let (left, below) := pop below
      op.combine left right :: below

/-- Whether the predicate accepts an item. -/
def accepts (p : Predicate τ) (item : τ) : Bool :=
  (pop (p.program.foldl (step item) [])).1

end Predicate

/-! ## The compiler -/

namespace Query

/-- What is still to be done: compile a query, or emit an instruction. -/
inductive Task (α τ : Type) where
  | compile (q : Query α)
  | emit (i : Instruction τ)

/-- The work in the pending tasks. -/
def workload : List (Task α τ) → Nat
  | [] => 0
  | .compile q :: rest => q.size + workload rest
  | .emit _ :: rest => 1 + workload rest

/-- A program being written, with the height of the stack after it. -/
structure Draft (τ : Type) where
  program : Array (Instruction τ)
  height : Nat
  stackDepth : Nat

/-- Writes one more instruction: a test grows the stack, a combination shrinks it. -/
def Draft.push : Draft τ → Instruction τ → Draft τ
  | ⟨program, height, depth⟩, .test accepts =>
      ⟨program.push (.test accepts), height + 1, max depth (height + 1)⟩
  | ⟨program, height, depth⟩, .negate => ⟨program.push .negate, height, depth⟩
  | ⟨program, height, depth⟩, .combine op => ⟨program.push (.combine op), height - 1, depth⟩

/-- Works through the pending tasks, the first one first. -/
def compileAll [Filter α τ] : List (Task α τ) → Draft τ → Draft τ
  | [], d => d
  | .compile (leaf f) :: rest, d => compileAll rest (d.push (.test (Filter.accepts f)))
  | .compile (unary .identity q) :: rest, d => compileAll (.compile q :: rest) d
  | .compile (unary .complement q) :: rest, d => compileAll (.compile q :: .emit .negate :: rest) d
  | .compile (binary op l r) :: rest, d =>
      compileAll (.compile l :: .compile r :: .emit (.combine op) :: rest) d
  | .compile (dangling _ l) :: rest, d => compileAll (.compile l :: rest) d
  | .emit i :: rest, d => compileAll rest (d.push i)
termination_by tasks => workload tasks
decreasing_by
  all_goals simp only [workload, size]
  all_goals omega

/-- The program of a query. -/
def compile [Filter α τ] (q : Query α) : Predicate τ :=
  let d := compileAll [.compile q] ⟨#[], 0, 0⟩
  ⟨d.program, d.stackDepth⟩

end Query

end Bookkeeping
