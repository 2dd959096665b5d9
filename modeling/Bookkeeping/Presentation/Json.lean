import Bookkeeping.Json
import Bookkeeping.Subtotal.Walk

set_option autoImplicit false

/-! # Subtotals as JSON

A group is an object with its fund as `value`. The groups below it stand in an object of their
own, by their labels, under the name of their level; readings stand so under `aggr`. A missing
content or remark has the label of the undated bucket, to keep it apart from an empty one. -/

namespace Bookkeeping.Presentation

open Subtotal (Key Tree Visit Walk Spec)

/-- Whole numbers below this in magnitude are written as such: two to the power 63. -/
abbrev wholeBound : Int := 9223372036854775808

/-- A fund as a JSON number: whole where it is a whole number of 64 bits, else a double. -/
def number (fund : Decimal) : Json :=
  match fund.toInteger? with
  | some i => if -wholeBound ≤ i ∧ i < wholeBound then .int i else .real fund.toDouble
  | none => .real fund.toDouble

/-- The name that a group stands by among its siblings. -/
def memberName (v : Visit) : String :=
  match v.tree.key with
  | .content none | .remark none => Granularity.undatedLabel
  | _ => v.label

/-- The members of a group before those of what lies below it. -/
def fundMembers (fund : Decimal) : Json.Members := [("value", number fund)]

/-- The field that what lies below a group stands under. -/
def belowField? : Subtotal.Below → Option String
  | .nothing => none
  | .level l => some l.fieldName
  | .readings _ => some "aggr"

/-- The walk that builds JSON values, each with the name it stands by. -/
def jsonWalk : Walk Id Unit (String × Json) where
  leaf _ v := (memberName v, .object (fundMembers v.tree.fund))
  reading _ _ r interval := (interval.label r.date, .object (fundMembers r.fund))
  down _ _ := ()
  up _ _ _ result := result
  combine _ v results :=
    let members := fundMembers v.tree.fund
    let members := (belowField? v.below).elim members fun field =>
      Json.Members.put members field (.object (Json.Members.ofList results))
    (memberName v, .object members)
  order _ children := children

/-- A tree as JSON. -/
def json (spec : Spec) (tree : Tree) : Json :=
  (jsonWalk.run spec () tree).run.2

end Bookkeeping.Presentation
