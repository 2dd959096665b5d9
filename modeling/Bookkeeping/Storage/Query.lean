import Bookkeeping.Query.Selection
import Bookkeeping.Storage.Ledger

set_option autoImplicit false

/-! # Stored queries

The stored forms of filters and queries. A query is an object with one member: a leaf, or an
operation with its operator and operands. A binary operation without right operand has null in
its place; in an object the member may be missing too. -/

namespace Bookkeeping

open Json (Members)
open Json.Members (ofOption)

/-! ## Operators -/

/-- The name that an operator is stored by. -/
def UnaryOperator.storedName : UnaryOperator → String
  | identity => "identity"
  | complement => "complement"

instance : Stored UnaryOperator where
  toJson op := .text op.storedName
  ofJson? := choice? [.identity, .complement] UnaryOperator.storedName

/-- The name that an operator is stored by. -/
def BinaryOperator.storedName : BinaryOperator → String
  | union => "union"
  | intersect => "intersect"
  | subtract => "subtract"

instance : Stored BinaryOperator where
  toJson op := .text op.storedName
  ofJson? := choice? [.union, .intersect, .subtract] BinaryOperator.storedName

/-! ## Queries -/

namespace Query

variable {α : Type} [Stored α]

/-- The stored form of a query. -/
def toJson : Query α → Json
  | leaf f => .object [("atom", Stored.toJson f)]
  | unary op q => .object [("unary", .object [("op", Stored.toJson op), ("operand", q.toJson)])]
  | binary op l r => .object [("binary", .object
      [("op", Stored.toJson op), ("left", l.toJson), ("right", r.toJson)])]
  | dangling op l => .object [("binary", .object
      [("op", Stored.toJson op), ("left", l.toJson), ("right", .null)])]

/-- Reads a query. -/
def ofJson? : Json → Option (Query α)
  | .object [("atom", f)] => (Stored.ofJson? f).map leaf
  | .object [("unary", body)] =>
      match _h : body.record? ["op", "operand"] with
      | some o => do
          let op ← o.field "op"
          match _h : o.get? "operand" with
          | some operand => return unary op (← ofJson? operand)
          | none => none
      | none => none
  | .object [("binary", body)] =>
      match _h : body.record? ["op", "left", "right"] with
      | some o => do
          let op ← o.field "op"
          match _h : o.get? "left" with
          | some left =>
              let l ← ofJson? left
              match _h : o.get? "right" with
              | some .null => return dangling op l
              | some right => return binary op l (← ofJson? right)
              | none => if body.isObject then return dangling op l else none
          | none => none
      | none => none
  | _ => none
termination_by j => sizeOf j
decreasing_by
  all_goals
    have := Json.sizeOf_get?_record?_lt (by assumption) (by assumption)
    simp only [Json.object.sizeOf_spec, List.cons.sizeOf_spec, Prod.mk.sizeOf_spec]
    omega

instance : Stored (Query α) where
  toJson := toJson
  ofJson? := ofJson?

end Query

/-! ## Filters -/

/-- A direction is kept as a sign. -/
instance : Stored Direction where
  toJson d := .int d.toInt
  ofJson?
    | .int i => (Direction.ofInt i).toOption
    | _ => none

namespace TitleClass

/-- All classes of titles. -/
def all : List TitleClass := [.asset, .liability, .eitherSide, .equity, .cost, .revenue, .expense]

/-- The name that a class is stored by. -/
def storedName : TitleClass → String
  | asset => "asset"
  | liability => "liability"
  | eitherSide => "mutual"
  | equity => "equity"
  | cost => "cost"
  | revenue => "revenue"
  | expense => "expense"

instance : Stored TitleClass where
  toJson c := .text c.storedName
  ofJson? := choice? all storedName

end TitleClass

instance : Stored DetailFilter where
  toJson f := .object <|
    [("dir", toJson f.direction)] ++ ofOption "kind" f.titleClass ++ ofOption "title" f.title
      ++ ofOption "subtitle" f.subTitle ++ ofOption "content" f.content
      ++ ofOption "remark" f.remark ++ ofOption "fund" f.fund ++ ofOption "currency" f.currency
      ++ ofOption "user" f.user
  ofJson? j := do
    let o ← j.record? ["dir", "kind", "title", "subtitle", "content", "remark", "fund",
      "currency", "user"]
    return ⟨← o.fieldD "dir" .either, ← o.field? "kind", ← o.field? "title", ← o.field? "subtitle",
      ← o.field? "content", ← o.field? "remark", ← o.field? "fund", ← o.field? "currency",
      ← o.field? "user"⟩

instance : Stored VoucherFilter where
  toJson f := .object <|
    [("range", toJson f.range)] ++ ofOption "type" f.kind ++ ofOption "remark" f.remark
      ++ ofOption "details" f.details ++ [("for_all", toJson f.forAll)]
  ofJson? j := do
    let o ← j.record? ["range", "type", "remark", "details", "for_all"]
    return ⟨← o.fieldD "range" .unconstrained, ← o.field? "type", ← o.field? "remark",
      ← o.field? "details", ← o.fieldD "for_all" false⟩

instance : Stored DeferredFilter where
  toJson f := .object <|
    ofOption "id" f.id ++ ofOption "name" f.name ++ ofOption "remark" f.remark
      ++ ofOption "user" f.user
  ofJson? j := do
    let o ← j.record? ["id", "name", "remark", "user"]
    return ⟨← o.field? "id", ← o.field? "name", ← o.field? "remark", ← o.field? "user"⟩

instance : Stored PostingQuery where
  toJson q := .object <| ofOption "vouchers" q.vouchers ++ ofOption "details" q.details
  ofJson? j := do
    let o ← j.record? ["vouchers", "details"]
    return ⟨← o.field? "vouchers", ← o.field? "details"⟩

end Bookkeeping
