import Bookkeeping.Report.Lines
import Bookkeeping.Report.NamedQuery
import Bookkeeping.Subtotal.Grouping

set_option autoImplicit false

/-! # Reports

A report expands a named query. Coefficients are multiplied and names joined on the way down; a
composite is its parts one below the other, and a reference is the body of a library entry,
weighted by the coefficient of the entry as well. What is reached in the end are grouped queries,
each of which gives the weighted lines of its subtotal.

The names of the entries being expanded are set aside on the way down and given back on the way
up, also when the expansion fails in between, and a reference to one of them is refused. Depth is
limited as well: every part and every entry lies one level below what holds it. -/

namespace Bookkeeping

namespace Report

/-- Settings of a report. -/
structure Options where
  /-- The deepest nesting of named queries. -/
  maxDepth : UInt64
  /-- Whether grouped queries without a bound are run. -/
  allowUnbounded : Bool
deriving DecidableEq

/-- Sixteen levels, and unbounded queries allowed. -/
def Options.standard : Options := ⟨16, true⟩

instance : Inhabited Options := ⟨Options.standard⟩

end Report

/-- What reports are made from. -/
structure Reporter where
  ledger : Ledger
  rates : RateLookup
  library : Library
  names : AccountNames
  options : Report.Options

namespace Reporter

/-- The lines of a grouped query below a path. -/
def subtotal (r : Reporter) (q : GroupedQuery) (path : String) (coefficient : Decimal) :
    Except Failure Report := do
  if q.query.isUnbounded && !r.options.allowUnbounded then
    throw (.refused .unbounded)
  let tree ← Subtotal.ofPostings q.subtotal r.rates (q.query.select r.ledger)
  Report.ofTree coefficient r.names q.subtotal path tree

/-- A step of the expansion. It may fail, and it works on the names of the entries that are being
    expanded; these outlive a failure. -/
abbrev Expanding (α : Type) : Type := ExceptT Failure (StateM (List String)) α

mutual

/-- The report of what a named query holds, its own name and coefficient aside. -/
def expandBody (r : Reporter) (path : String) (coefficient : Decimal) (depth : Nat)
    (q : NamedQuery) : Expanding Report :=
  if _hdepth : r.options.maxDepth.toNat < depth then
    throw (.depthExceeded r.options.maxDepth.toNat)
  else
    match q with
    | .grouped _ _ query => MonadExcept.ofExcept (r.subtotal query path coefficient)
    | .composite _ _ parts => do
        let (total, blocks) ← r.expandParts path coefficient (depth + 1) .zero parts
        return ⟨total, Report.joinBlocks blocks⟩
    | .reference _ _ target => do
        match r.library.get? target with
        | none => throw (.unknownNamedQuery target)
        | some entry =>
            if (← get).contains target then throw (.cyclicReference target)
            modify (target :: ·)
            try
              let weight ← MonadExcept.ofExcept (coefficient.checkedMul entry.coefficient)
              r.expandBody path weight (depth + 1) entry
            finally
              modify (·.erase target)
termination_by (r.options.maxDepth.toNat + 1 - depth, sizeOf q)

/-- The sum of the totals of parts, on top of a total so far, and the lines of each part. -/
def expandParts (r : Reporter) (path : String) (coefficient : Decimal) (depth : Nat)
    (total : Decimal) : List NamedQuery → Expanding (Decimal × List String)
  | [] => return (total, [])
  | part :: rest => do
      let weight ← MonadExcept.ofExcept (coefficient.checkedMul part.coefficient)
      let report ← r.expandBody (Report.joinPath path part.name) weight depth part
      let total ← MonadExcept.ofExcept (total.checkedAdd report.total)
      let (total, blocks) ← r.expandParts path coefficient depth total rest
      return (total, report.text :: blocks)
termination_by parts => (r.options.maxDepth.toNat + 1 - depth, sizeOf parts)

end

/-- The report of a named query. -/
def report (r : Reporter) (q : NamedQuery) : Except Failure Report := do
  let weight ← Decimal.one.checkedMul q.coefficient
  ((r.expandBody (Report.joinPath "" q.name) weight 0 q).run.run []).1

/-- The report of a single grouped query, with coefficient one. -/
def reportGrouped (r : Reporter) (q : GroupedQuery) : Except Failure Report :=
  r.subtotal q "" .one

end Reporter

end Bookkeeping
