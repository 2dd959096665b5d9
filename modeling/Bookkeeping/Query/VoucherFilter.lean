import Bookkeeping.Calendar.Range
import Bookkeeping.Query.Boundedness
import Bookkeeping.Query.DetailFilter
import Bookkeeping.Query.Program

set_option autoImplicit false

/-! # Filters on vouchers and deferred items

A voucher is filtered by its date, kind and remark, and by a query over its details, which
either some detail or all of them must match. Any of the four bounds the filter, the embedded
query when it is bounded itself.

A deferred item is filtered by identifier, name, remark and owner; its owner alone does not
bound the filter. -/

namespace Bookkeeping

/-! ## Vouchers -/

/-- A filter for whole vouchers. -/
structure VoucherFilter where
  range : DateRange
  kind : Option VoucherKind
  remark : Option String
  details : Option (Query DetailFilter)
  /-- Whether all details have to match, not just one. -/
  forAll : Bool
deriving DecidableEq

namespace VoucherFilter

/-- The filter that accepts every voucher. -/
def wildcard : VoucherFilter := ⟨.unconstrained, none, none, none, false⟩

instance : Inhabited VoucherFilter := ⟨wildcard⟩

/-- The filter for vouchers of a date range. -/
def within (range : DateRange) : VoucherFilter := { wildcard with range := range }

/-- The filter with the demand that some detail match. -/
def withAnyDetail (f : VoucherFilter) (details : Query DetailFilter) : VoucherFilter :=
  { f with details := some details, forAll := false }

/-- The filter with the demand that every detail match. -/
def withAllDetails (f : VoucherFilter) (details : Query DetailFilter) : VoucherFilter :=
  { f with details := some details, forAll := true }

/-- Whether the filter accepts a voucher, when `details` tells which details match. -/
def acceptsGiven (f : VoucherFilter) (details : Option (Detail → Bool)) (v : Voucher) : Bool :=
  f.range.contains v.date
    && f.kind.all (v.kind = ·)
    && acceptsText f.remark v.remark
    && details.all fun matching => if f.forAll then v.details.all matching else v.details.any matching

/-- Whether the filter accepts a voucher; the query over its details is compiled first. -/
def accepts (f : VoucherFilter) : Voucher → Bool :=
  f.acceptsGiven (f.details.map fun q => q.compile.accepts)

/-- Whether nothing in the filter bounds the vouchers it selects. -/
def isUnbounded (f : VoucherFilter) : Bool :=
  f.range.isUnbounded && f.kind.isNone && f.remark.isNone && f.details.all (·.isUnbounded)

instance : Filter VoucherFilter Voucher where
  isUnbounded := isUnbounded
  accepts := accepts

end VoucherFilter

/-! ## Deferred items -/

/-- A filter for deferred items. -/
structure DeferredFilter where
  id : Option String
  name : Option String
  remark : Option String
  user : Option String
deriving DecidableEq

namespace DeferredFilter

/-- The filter that accepts every item. -/
def wildcard : DeferredFilter := ⟨none, none, none, none⟩

instance : Inhabited DeferredFilter := ⟨wildcard⟩

/-- The filter for an identifier. -/
def byId (id : String) : DeferredFilter := { wildcard with id := some id }

/-- The filter for a name. -/
def byName (name : String) : DeferredFilter := { wildcard with name := some name }

/-- Whether the filter accepts an item. -/
def accepts (f : DeferredFilter) (item : DeferredItem) : Bool :=
  f.id.all (item.id = some ·)
    && f.user.all (item.user = some ·)
    && acceptsText f.name item.name
    && acceptsText f.remark item.remark

instance : Filter DeferredFilter DeferredItem where
  isUnbounded f := f.id.isNone && f.name.isNone && f.remark.isNone
  accepts := accepts

end DeferredFilter

end Bookkeeping
