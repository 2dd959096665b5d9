import Bookkeeping.Subtotal.Key
import Bookkeeping.Subtotal.Series

set_option autoImplicit false

/-! # Subtotal trees

The result of grouping: below the group of everything stand the groups of the first level, below
each of those the groups of the second one, and so on, siblings in the order in which the first
posting of each came up. A group of the last level may hold a running balance. -/

namespace Bookkeeping.Subtotal

/-- A group with the groups below it. -/
structure Tree where
  key : Key
  /-- The sum of the group, or a number of things. -/
  fund : Decimal
  children : List Tree
  /-- The running balance of a last-level group. -/
  readings : List Reading

namespace Tree

/-- A group of nothing. -/
def empty (key : Key) : Tree := ⟨key, .zero, [], []⟩

/-- Whether there are no groups below. -/
def isLeaf (t : Tree) : Bool := t.children.isEmpty

/-- The group with a key right below. -/
def child? (t : Tree) (key : Key) : Option Tree :=
  t.children.find? (·.key = key)

/-- The group at the end of a path of keys. -/
def descend? (t : Tree) : List Key → Option Tree
  | [] => some t
  | key :: rest => (t.child? key).bind (·.descend? rest)

mutual

/-- The number of leaves at or below a group. -/
def leafCount : Tree → Nat
  | ⟨_, _, [], _⟩ => 1
  | ⟨_, _, child :: rest, _⟩ => child.leafCount + leafCounts rest

/-- The number of leaves at or below several groups. -/
def leafCounts : List Tree → Nat
  | [] => 0
  | t :: rest => t.leafCount + leafCounts rest

end

end Tree

end Bookkeeping.Subtotal
