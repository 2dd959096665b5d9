import Bookkeeping.Report.Expansion
import Bookkeeping.Storage.Subtotal

set_option autoImplicit false

/-! # Stored named queries

The stored forms of named queries, of libraries and of report settings. What a named query holds
stands under `body`, as an object with one member that tells its kind. -/

namespace Bookkeeping

namespace NamedQuery

/-- A named query with the given body. -/
def record (name : String) (coefficient : Decimal) (kind : String) (body : Json) : Json :=
  .object [("name", Stored.toJson name), ("coefficient", Stored.toJson coefficient),
    ("body", .object [(kind, body)])]

mutual

/-- The stored form of a named query. -/
def toJson : NamedQuery → Json
  | grouped name c q => record name c "grouped" (Stored.toJson q)
  | composite name c parts => record name c "composite" (.array (listToJson parts))
  | reference name c target => record name c "reference" (Stored.toJson target)

/-- The stored forms of named queries. -/
def listToJson : List NamedQuery → List Json
  | [] => []
  | q :: rest => q.toJson :: listToJson rest

end

mutual

/-- Reads a named query. The name may be left out, and a coefficient of one too. -/
def ofJson? (j : Json) : Option NamedQuery :=
  match _hrecord : j.record? ["name", "coefficient", "body"] with
  | some o => do
      let name ← o.fieldD "name" ""
      let c ← o.fieldD "coefficient" Decimal.one
      match _hbody : o.get? "body" with
      | some (.object [("grouped", q)]) => return grouped name c (← Stored.ofJson? q)
      | some (.object [("composite", .array parts)]) => return composite name c (← listOfJson? parts)
      | some (.object [("reference", target)]) => return reference name c (← Stored.ofJson? target)
      | _ => none
  | none => none
termination_by sizeOf j
decreasing_by
  have := Json.sizeOf_get?_record?_lt _hrecord _hbody
  simp only [Json.object.sizeOf_spec, List.cons.sizeOf_spec, Prod.mk.sizeOf_spec,
    Json.array.sizeOf_spec] at this
  omega

/-- Reads named queries. -/
def listOfJson? : List Json → Option (List NamedQuery)
  | [] => some []
  | j :: rest => do return (← ofJson? j) :: (← listOfJson? rest)
termination_by js => sizeOf js

end

instance : Stored NamedQuery where
  toJson := toJson
  ofJson? := ofJson?

end NamedQuery

/-- A library is kept as the list of its entries. -/
def Library.ofJson? (j : Json) : Option Library :=
  (Stored.ofJson? j : Option (List NamedQuery)).map Library.ofList

instance : Stored Report.Options where
  toJson o := .object
    [("max_depth", toJson o.maxDepth), ("allow_unbounded", toJson o.allowUnbounded)]
  ofJson? j := do
    let o ← j.record? ["max_depth", "allow_unbounded"]
    return ⟨← o.fieldD "max_depth" Report.Options.standard.maxDepth,
      ← o.fieldD "allow_unbounded" Report.Options.standard.allowUnbounded⟩

end Bookkeeping
