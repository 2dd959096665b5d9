import Bookkeeping.Query.Basic
import Bookkeeping.Text

set_option autoImplicit false

/-! # Operators by symbol

Trees are handed over ready-made, one operator symbol and its operands at a time. In front of
an operand `+` and `-` are identity and complement; between operands they are union and
subtraction, and `*` or nothing at all is intersection. Only an intersection may lack its right
operand.

`QueryError` lists what can be wrong with a query, here and when it is run. -/

namespace Bookkeeping

/-- Why a query is refused. -/
inductive QueryError where
  /-- An operator stands alone. -/
  | noOperands (symbol : String)
  /-- An operator that needs a right operand has none. -/
  | noRightOperand (symbol : String)
  /-- An intersection stands in front of its operand. -/
  | noLeftOperand
  /-- A direction is none of the three signs. -/
  | directionOutOfRange (value : Int)
  /-- No operator has this symbol. -/
  | unknownOperator (symbol : String)
  /-- The query may match the whole ledger, and the caller does not want that. -/
  | unbounded
deriving DecidableEq, Repr

/-- The text of an error. -/
def QueryError.message : QueryError → String
  | noOperands symbol => "malformed query: operator '" ++ symbol ++ "' has no operands"
  | noRightOperand symbol => "malformed query: operator '" ++ symbol ++ "' has no right operand"
  | noLeftOperand => "malformed query: intersection needs a left operand"
  | directionOutOfRange value =>
      "malformed query: direction must be -1, 0 or 1, got " ++ toString value
  | unknownOperator symbol => "unknown operator: '" ++ symbol ++ "'"
  | unbounded => "query is unbounded and would scan the whole ledger"

/-- The operator that a symbol means in front of its operand. -/
def UnaryOperator.ofSymbol (symbol : String) : Except QueryError UnaryOperator :=
  let s := Text.trim symbol
  if s = "+" then .ok identity
  else if s = "-" then .ok complement
  else if s = "*" ∨ s = "" then .error .noLeftOperand
  else .error (.unknownOperator s)

/-- The operator that a symbol means between its operands. -/
def BinaryOperator.ofSymbol (symbol : String) : Except QueryError BinaryOperator :=
  let s := Text.trim symbol
  if s = "+" then .ok union
  else if s = "-" then .ok subtract
  else if s = "*" ∨ s = "" then .ok intersect
  else .error (.unknownOperator s)

/-- The query of an operator symbol and its operands. -/
def Query.ofParts {α : Type} (symbol : String) :
    Option (Query α) → Option (Query α) → Except QueryError (Query α)
  | none, none => .error (.noOperands symbol)
  | none, some operand => do
      let op ← UnaryOperator.ofSymbol symbol
      return .unary op operand
  | some left, right => do
      let op ← BinaryOperator.ofSymbol symbol
      match right with
      | some right => return .binary op left right
      | none => if op = .intersect then return .dangling op left else .error (.noRightOperand symbol)

end Bookkeeping
