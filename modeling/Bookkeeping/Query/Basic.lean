set_option autoImplicit false

/-! # Queries

A query is a tree of set operations over leaf filters. The tree is generic in the filter, so one
algebra serves details, vouchers and deferred items. A binary operation may lack its right
operand; it then stands for its left one.

`Query.holds` is the meaning of a query: a test of one item, given the meaning of its filters. What
all filters have in common is the class `Filter`: a filter tests one item, and it tells whether it
fails to bound the set of items it selects. -/

namespace Bookkeeping

/-! ## Filters -/

/-- Filters of type `α` over items of type `τ`. -/
class Filter (α : Type) (τ : outParam Type) where
  /-- Whether the filter alone leaves the set it selects without a bound. -/
  isUnbounded : α → Bool
  /-- The test of a single item. -/
  accepts : α → τ → Bool

/-- Optional text filter: a missing one accepts anything, an empty one a missing or empty text,
    and any other one the same text. -/
def acceptsText : Option String → Option String → Bool
  | none, _ => true
  | some wanted, text => if wanted = "" then text.all (· = "") else text = some wanted

/-- Optional filter for one value: a missing one accepts anything. -/
def acceptsValue {β : Type} [DecidableEq β] : Option β → β → Bool
  | none, _ => true
  | some wanted, value => value = wanted

/-! ## Operators and trees -/

/-- Operators with one operand: the operand itself, or all it does not match. -/
inductive UnaryOperator where
  | identity
  | complement
deriving DecidableEq, Repr

/-- Operators with two operands. -/
inductive BinaryOperator where
  | union
  | intersect
  | subtract
deriving DecidableEq, Repr

/-- The truth function of an operator. -/
def BinaryOperator.combine : BinaryOperator → Bool → Bool → Bool
  | .union, l, r => l || r
  | .intersect, l, r => l && r
  | .subtract, l, r => l && !r

/-- A query over filters of type `α`. -/
inductive Query (α : Type) where
  | leaf (filter : α)
  | unary (op : UnaryOperator) (operand : Query α)
  | binary (op : BinaryOperator) (left right : Query α)
  /-- A binary operation that lacks its right operand. -/
  | dangling (op : BinaryOperator) (left : Query α)
deriving DecidableEq

namespace Query

variable {α τ : Type}

/-! ## Constructors by name -/

/-- The operand itself. -/
def identity (q : Query α) : Query α := unary .identity q

/-- Everything the operand does not match. -/
def complement (q : Query α) : Query α := unary .complement q

/-- What either operand matches. -/
def union (l r : Query α) : Query α := binary .union l r

/-- What both operands match. -/
def intersect (l r : Query α) : Query α := binary .intersect l r

/-- What the left operand matches and the right one does not. -/
def subtract (l r : Query α) : Query α := binary .subtract l r

/-! ## Meaning -/

/-- Whether a query matches an item, when `accepts` tells what its filters accept. -/
def holds (accepts : α → τ → Bool) (item : τ) : Query α → Bool
  | leaf f => accepts f item
  | unary .identity q => q.holds accepts item
  | unary .complement q => !q.holds accepts item
  | binary op l r => op.combine (l.holds accepts item) (r.holds accepts item)
  | dangling _ l => l.holds accepts item

/-- The filters that occur in a query, from left to right. -/
def leaves : Query α → List α
  | leaf f => [f]
  | unary _ q => q.leaves
  | binary _ l r => l.leaves ++ r.leaves
  | dangling _ l => l.leaves

/-- A measure of the tree that leaves room for one operator per operation. -/
def size : Query α → Nat
  | leaf _ => 1
  | unary _ q => q.size + 2
  | binary _ l r => l.size + r.size + 2
  | dangling _ l => l.size + 1

end Query

end Bookkeeping
