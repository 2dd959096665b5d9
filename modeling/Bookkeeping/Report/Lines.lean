import Bookkeeping.Failure
import Bookkeeping.Presentation.Text

set_option autoImplicit false

/-! # Weighted lines

A subtotal as it stands in a report: one line for each leaf, or for each reading where there is
a running balance, in the natural order of the groups. A line has a path, the value, the
coefficient and their product, set apart by tabs; the path is made of the names of the queries
above and the labels or account names of the groups. The total is the sum of the products. -/

namespace Bookkeeping

/-- A report: the sum of all weighted values, and a line for each of them. -/
structure Report where
  total : Decimal
  text : String
deriving DecidableEq

namespace Report

open Subtotal (Key Tree Visit Walk Spec)
open Presentation (accountName? titleBelow)

/-- A path with one more segment; an empty segment adds nothing. -/
def joinPath (path segment : String) : String :=
  if segment = "" then path
  else if path = "" then segment
  else path ++ "/" ++ segment

/-- Blocks of lines one below the other; empty blocks leave no blank line. -/
def joinBlocks (blocks : List String) : String :=
  "\n".intercalate (blocks.filter (· ≠ ""))

/-- Reports one below the other. -/
def join (reports : List Report) : Except Failure Report := do
  let total ← Decimal.checkedSum (reports.map (·.total))
  return ⟨total, joinBlocks (reports.map (·.text))⟩

/-- The line of a value. -/
def line (coefficient : Decimal) (path : String) (value : Decimal) : Except Failure Report := do
  let weighted ← value.checkedMul coefficient
  return ⟨weighted, path ++ "\t" ++ value.fundText ++ "\t" ++ coefficient.fundText ++ "\t"
    ++ weighted.fundText⟩

/-- The place of a group in a report: the path of its line, and the title nearest above. -/
structure Place where
  path : String
  title : Option Int32

/-- The segment that a group adds to the path. -/
def segment (names : AccountNames) (titleAbove : Option Int32) (v : Visit) : String :=
  (accountName? names titleAbove v.tree.key).getD v.label

/-- The walk that writes weighted lines. -/
def lineWalk (coefficient : Decimal) (names : AccountNames) :
    Walk (Except Failure) Place Report where
  leaf place v := line coefficient place.path v.tree.fund
  reading place _ r interval :=
    line coefficient (joinPath place.path (interval.label r.date)) r.fund
  down place child := return {
    path := joinPath place.path (segment names place.title child)
    title := titleBelow place.title child.tree.key }
  up _ _ _ report := return report
  combine _ _ reports := join reports
  order _ children := children.mergeSort fun a b => (compare a.key b.key).isLE

/-- The lines of a subtotal below a path. -/
def ofTree (coefficient : Decimal) (names : AccountNames) (spec : Spec) (path : String)
    (tree : Tree) : Except Failure Report :=
  (lineWalk coefficient names).run spec ⟨path, none⟩ tree

end Report

end Bookkeeping
