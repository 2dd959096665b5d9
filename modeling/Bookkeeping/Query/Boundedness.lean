import Bookkeeping.Query.Basic
import Bookkeeping.Query.Operator

set_option autoImplicit false

/-! # Unbounded queries

A query is unbounded when nothing in it limits the items it selects. A complement always is, a
union when either side is, an intersection when both sides are, and a subtraction when its left
side is. `Query.lacksBound` says just that by recursion.

Queries can be very deep, so `Query.isUnbounded` works through them with a list of pending
frames and a stack of judgments instead; operands that cannot matter are never looked at. -/

namespace Bookkeeping

namespace Query

variable {α τ : Type}

/-- Whether the union or intersection of two sides lacks a bound. -/
def joinBounds : BinaryOperator → Bool → Bool → Bool
  | .intersect, l, r => l && r
  | .union, l, r | .subtract, l, r => l || r

/-- Whether a query lacks a bound, by recursion over the tree; `unbounded` judges the leaves. -/
def lacksBound (unbounded : α → Bool) : Query α → Bool
  | leaf f => unbounded f
  | unary .identity q => q.lacksBound unbounded
  | unary .complement _ => true
  | binary .subtract l _ => l.lacksBound unbounded
  | binary .union l r => l.lacksBound unbounded || r.lacksBound unbounded
  | binary .intersect l r => l.lacksBound unbounded && r.lacksBound unbounded
  | dangling _ l => l.lacksBound unbounded

/-! ## The worklist -/

/-- What is still to be done: judge a query, or join the judgments of two. -/
inductive Frame (α : Type) where
  | judge (q : Query α)
  | join (op : BinaryOperator)

/-- The work in the pending frames. -/
def framesWeight : List (Frame α) → Nat
  | [] => 0
  | .judge q :: rest => q.size + framesWeight rest
  | .join _ :: rest => 1 + framesWeight rest

/-- The top of a stack of judgments and what lies below; an empty stack counts as unbounded. -/
def popJudgment : List Bool → Bool × List Bool
  | [] => (true, [])
  | top :: rest => (top, rest)

/-- Works through the pending frames, the first one first. -/
def judgeAll [Filter α τ] : List (Frame α) → List Bool → List Bool
  | [], judgments => judgments
  | .judge (leaf f) :: rest, judgments => judgeAll rest (Filter.isUnbounded f :: judgments)
  | .judge (unary .identity q) :: rest, judgments => judgeAll (.judge q :: rest) judgments
  | .judge (unary .complement _) :: rest, judgments => judgeAll rest (true :: judgments)
  | .judge (dangling _ l) :: rest, judgments => judgeAll (.judge l :: rest) judgments
  | .judge (binary op l r) :: rest, judgments =>
      if op = .subtract then judgeAll (.judge l :: rest) judgments
      else judgeAll (.judge l :: .judge r :: .join op :: rest) judgments
  | .join op :: rest, judgments =>
      let (right, below) := popJudgment judgments
      let (left, below) := popJudgment below
      judgeAll rest (joinBounds op left right :: below)
termination_by frames => framesWeight frames
decreasing_by
  all_goals simp only [framesWeight, size]
  all_goals omega

/-- Whether nothing bounds the items that a query selects. -/
def isUnbounded [Filter α τ] (q : Query α) : Bool :=
  (popJudgment (judgeAll [.judge q] [])).1

/-! ## Advice -/

/-- The advice given for an unbounded query, which may be run all the same. -/
def unboundedAdvice : String := "query is unbounded; it may match the whole ledger"

/-- The advice to a query, if it needs any. -/
def advice? [Filter α τ] (q : Query α) : Option String :=
  if q.isUnbounded then some unboundedAdvice else none

/-- Refuses an unbounded query unless such queries are allowed. -/
def ensureBounded [Filter α τ] (q : Query α) (allowUnbounded : Bool) : Except QueryError Unit :=
  if q.isUnbounded && !allowUnbounded then .error .unbounded else .ok ()

end Query

end Bookkeeping
