import Bookkeeping.Query.VoucherFilter

set_option autoImplicit false

/-! # Selecting from a ledger

What queries select, in ledger order: vouchers and deferred items with their places, and details
as postings, each with the fund to be added up. A `PostingQuery` narrows details down by a query
over the details and one over their vouchers; a side that is missing accepts everything. -/

namespace Bookkeeping

/-- The vouchers with some detail that the query matches, and their places. -/
def Ledger.vouchersWith (ledger : Ledger) (q : Query DetailFilter) : List (Voucher × Nat) :=
  let predicate := q.compile
  ledger.zipIdx.filter fun (v, _) => v.details.any predicate.accepts

/-- The vouchers that the query matches, and their places. -/
def Ledger.filterVouchers (ledger : Ledger) (q : Query VoucherFilter) : List (Voucher × Nat) :=
  let predicate := q.compile
  ledger.zipIdx.filter fun (v, _) => predicate.accepts v

/-- The postings whose voucher and detail the predicates accept, and the fund of each. -/
def Ledger.fetch (ledger : Ledger) (vouchers : Predicate Voucher) (details : Predicate Detail) :
    List (Posting × Decimal) :=
  ((ledger.zipIdx.filter fun (v, _) => vouchers.accepts v).flatMap fun (v, place) =>
    (v.postings place).filter fun p => details.accepts p.detail).map fun p => (p, p.detail.fund)

/-- The postings whose detail the query matches, and the fund of each. -/
def Ledger.selectDetails (ledger : Ledger) (q : Query DetailFilter) : List (Posting × Decimal) :=
  ledger.fetch .always q.compile

/-- The deferred items that the query matches, and their places. -/
def DeferredItem.select (items : List DeferredItem) (q : Query DeferredFilter) :
    List (DeferredItem × Nat) :=
  let predicate := q.compile
  items.zipIdx.filter fun (item, _) => predicate.accepts item

/-- A query over details, perhaps within the vouchers that another one matches. -/
structure PostingQuery where
  vouchers : Option (Query VoucherFilter)
  details : Option (Query DetailFilter)
deriving DecidableEq

namespace PostingQuery

/-- The query that selects every posting. -/
def everything : PostingQuery := ⟨none, none⟩

instance : Inhabited PostingQuery := ⟨everything⟩

/-- Whether neither side bounds the postings it selects. -/
def isUnbounded (q : PostingQuery) : Bool :=
  q.vouchers.all (·.isUnbounded) && q.details.all (·.isUnbounded)

/-- The postings that the query selects, and the fund of each. -/
def select (q : PostingQuery) (ledger : Ledger) : List (Posting × Decimal) :=
  ledger.fetch (q.vouchers.elim .always (·.compile)) (q.details.elim .always (·.compile))

end PostingQuery

end Bookkeeping
