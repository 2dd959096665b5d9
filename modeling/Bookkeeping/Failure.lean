import Bookkeeping.Calendar.DateText
import Bookkeeping.Decimal.Arithmetic
import Bookkeeping.Query.Operator

set_option autoImplicit false

/-! # Failures

Why no subtotal or report can be given, the results of computations that may fail, step by step, and
the arithmetic that fails instead of leaving the range of amounts. -/

namespace Bookkeeping

/-- Why no subtotal or report can be given. -/
inductive Failure where
  /-- No rate is known for a conversion; without a date the latest rate was asked for. -/
  | missingRate (currency target : String) (date : Option Date)
  /-- A named query refers back to itself. -/
  | cyclicReference (name : String)
  /-- Named queries are nested deeper than allowed. -/
  | depthExceeded (maxDepth : Nat)
  /-- A named query that is referred to does not exist. -/
  | unknownNamedQuery (name : String)
  /-- An amount leaves the range. -/
  | overflow
  /-- The query behind the subtotal is refused. -/
  | refused (error : QueryError)
deriving DecidableEq

/-- The text of a failure. -/
def Failure.message : Failure → String
  | missingRate currency target date =>
      "no rate from " ++ currency ++ " to " ++ target ++ date.elim "" fun d => " on " ++ d.toText
  | cyclicReference name => "named query '" ++ name ++ "' refers to itself"
  | depthExceeded maxDepth => "named query nesting exceeds " ++ toString maxDepth ++ " levels"
  | unknownNamedQuery name => "unknown named query: '" ++ name ++ "'"
  | overflow => "amount overflow while aggregating"
  | refused error => error.message

/-! ## Results of steps -/

section

variable {α β : Type}

theorem bind_eq_ok {x : Except Failure α} {f : α → Except Failure β} {b : β} :
    (x >>= f) = .ok b ↔ ∃ a, x = .ok a ∧ f a = .ok b := by
  cases x with
  | error e => simp [bind, Except.bind]
  | ok a => simp [bind, Except.bind]

theorem bind_eq_error {x : Except Failure α} {f : α → Except Failure β} {e : Failure} :
    (x >>= f) = .error e ↔ x = .error e ∨ ∃ a, x = .ok a ∧ f a = .error e := by
  cases x with
  | error e => simp [bind, Except.bind]
  | ok a => simp [bind, Except.bind]

theorem map_eq_ok {x : Except Failure α} {f : α → β} {b : β} :
    x.map f = .ok b ↔ ∃ a, x = .ok a ∧ f a = b := by
  cases x with
  | error e => simp [Except.map]
  | ok a => simp [Except.map]

theorem map_eq_error {x : Except Failure α} {f : α → β} {e : Failure} :
    x.map f = .error e ↔ x = .error e := by
  cases x with
  | error e => simp [Except.map]
  | ok a => simp [Except.map]

@[simp] theorem ok_bind (a : α) (f : α → Except Failure β) : (Except.ok a >>= f) = f a := rfl

@[simp] theorem pure_eq_ok (a : α) : (pure a : Except Failure α) = .ok a := rfl

end

/-! ## Arithmetic -/

namespace Decimal

/-- The sum, failing where it leaves the range. -/
def checkedAdd (a b : Decimal) : Except Failure Decimal :=
  (add a b).elim (.error .overflow) .ok

/-- The product, failing where it leaves the range. -/
def checkedMul (a b : Decimal) : Except Failure Decimal :=
  (mul a b).elim (.error .overflow) .ok

/-- The sum of a start and amounts added one after another, failing where one of the sums on
    the way leaves the range. -/
def checkedSumFrom (start : Decimal) (amounts : List Decimal) : Except Failure Decimal :=
  amounts.foldlM checkedAdd start

/-- The sum of amounts, added one after another. -/
def checkedSum (amounts : List Decimal) : Except Failure Decimal :=
  checkedSumFrom zero amounts

end Decimal

end Bookkeeping
