import Mathlib.Data.List.Dedup
import Bookkeeping.Proofs.Query.Selection

set_option autoImplicit false

/-! # The ways of selecting agree

Vouchers are selected by a query over their details or by one over the vouchers themselves, and
details by the one, the other or both. Each way runs through the ledger once, so what it selects
stands in ledger order, and items are told by their places: two ways agree as lists as soon as they
select the same members. What they select is said by `Query.Means` alone.

A filter for vouchers that asks for nothing but its details has to be neutral in everything else,
its date range included, which takes undated vouchers as well. Some detail and all details are dual
to each other, and a voucher without details has all of them. -/

namespace Bookkeeping

/-! ## Places in a ledger -/

/-- The voucher of a posting, and its place in the ledger. -/
def Posting.source (p : Posting) : Voucher × Nat := (p.voucher, p.voucherPlace)

/-- Whether a ledger has a posting at the places that the posting names. -/
structure Posting.StandsIn (p : Posting) (ledger : Ledger) : Prop where
  voucher : ledger[p.voucherPlace]? = some p.voucher
  detail : p.voucher.details[p.detailPlace]? = some p.detail

/-- Whether a posting comes before another one: in an earlier voucher, or in the same one as an
    earlier detail. -/
def Posting.Before (p other : Posting) : Prop :=
  p.voucherPlace < other.voucherPlace ∨
    p.voucherPlace = other.voucherPlace ∧ p.detailPlace < other.detailPlace

theorem zipIdx_ascending {α : Type} (l : List α) : l.zipIdx.Pairwise fun a b => a.2 < b.2 := by
  rw [← List.pairwise_map (f := Prod.snd) (R := (· < ·)), List.zipIdx_map_snd]
  exact List.pairwise_lt_range'

theorem Voucher.mem_postings {v : Voucher} {place : Nat} {p : Posting} :
    p ∈ v.postings place ↔ p.source = (v, place) ∧ v.details[p.detailPlace]? = some p.detail := by
  constructor
  · intro h
    obtain ⟨⟨d, detailPlace⟩, hd, rfl⟩ := List.mem_map.1 h
    exact ⟨rfl, List.mem_zipIdx_iff_getElem?.1 hd⟩
  · rintro ⟨hsource, hdetail⟩
    obtain ⟨rfl, rfl⟩ := Prod.mk.inj hsource
    exact List.mem_map.2 ⟨(p.detail, p.detailPlace), List.mem_zipIdx_iff_getElem?.2 hdetail, rfl⟩

theorem Voucher.postings_ascending (v : Voucher) (place : Nat) :
    (v.postings place).Pairwise Posting.Before :=
  List.pairwise_map.2 ((zipIdx_ascending v.details).imp fun h => .inr ⟨rfl, h⟩)

namespace Ledger

variable {ledger : Ledger}

theorem mem_postings {p : Posting} : p ∈ ledger.postings ↔ p.StandsIn ledger := by
  constructor
  · intro h
    obtain ⟨⟨v, place⟩, hv, hp⟩ := List.mem_flatMap.1 h
    obtain ⟨hsource, hdetail⟩ := Voucher.mem_postings.1 hp
    obtain ⟨rfl, rfl⟩ := Prod.mk.inj hsource
    exact ⟨List.mem_zipIdx_iff_getElem?.1 hv, hdetail⟩
  · intro h
    exact List.mem_flatMap.2 ⟨p.source, List.mem_zipIdx_iff_getElem?.2 h.voucher,
      Voucher.mem_postings.2 ⟨rfl, h.detail⟩⟩

theorem postings_ascending (ledger : Ledger) : ledger.postings.Pairwise Posting.Before := by
  refine List.pairwise_flatMap.2 ⟨fun s _ => s.1.postings_ascending s.2, ?_⟩
  refine (zipIdx_ascending ledger).imp ?_
  intro s t hlt p hp other hother
  rw [← (Voucher.voucher_of_mem_postings hp).2,
    ← (Voucher.voucher_of_mem_postings hother).2] at hlt
  exact .inl hlt

/-! ## What each way selects -/

theorem vouchersWith_eq (ledger : Ledger) (q : Query DetailFilter) :
    ledger.vouchersWith q =
      ledger.zipIdx.filter fun s => s.1.details.any fun d => q.holds Filter.accepts d := by
  rw [← funext q.accepts_compile]
  rfl

theorem filterVouchers_eq (ledger : Ledger) (w : Query VoucherFilter) :
    ledger.filterVouchers w = ledger.zipIdx.filter fun s => w.holds Filter.accepts s.1 :=
  List.filter_congr fun s _ => w.accepts_compile s.1

theorem selectDetails_eq (ledger : Ledger) (q : Query DetailFilter) :
    ledger.selectDetails q = (⟨none, some q⟩ : PostingQuery).select ledger := rfl

theorem mem_vouchersWith {q : Query DetailFilter} {s : Voucher × Nat} :
    s ∈ ledger.vouchersWith q ↔
      ledger[s.2]? = some s.1 ∧ ∃ d ∈ s.1.details, q.Means DetailFilter.Matches d := by
  rw [vouchersWith_eq, List.mem_filter, List.mem_zipIdx_iff_getElem?, List.any_eq_true]
  simp only [Query.holds_detail_iff]

theorem mem_filterVouchers {w : Query VoucherFilter} {s : Voucher × Nat} :
    s ∈ ledger.filterVouchers w ↔
      ledger[s.2]? = some s.1 ∧ w.Means VoucherFilter.Matches s.1 := by
  rw [filterVouchers_eq, List.mem_filter, List.mem_zipIdx_iff_getElem?, Query.holds_voucher_iff]

theorem mem_selectDetails {q : Query DetailFilter} {e : Posting × Decimal} :
    e ∈ ledger.selectDetails q ↔
      e.1.StandsIn ledger ∧ q.Means DetailFilter.Matches e.1.detail ∧ e.2 = e.1.detail.fund := by
  rw [selectDetails_eq, PostingQuery.select_eq, List.mem_map]
  constructor
  · rintro ⟨p, hp, rfl⟩
    obtain ⟨hp, hselects⟩ := List.mem_filter.1 hp
    exact ⟨mem_postings.1 hp, Query.holds_detail_iff.1 hselects, rfl⟩
  · rintro ⟨hp, hmeans, hfund⟩
    have hselects := Query.holds_detail_iff.2 hmeans
    exact ⟨e.1, List.mem_filter.2 ⟨mem_postings.2 hp, hselects⟩, Prod.ext rfl hfund.symm⟩

/-- A selection of vouchers names each place once, in the order of the ledger. -/
theorem filterVouchers_ascending (ledger : Ledger) (w : Query VoucherFilter) :
    (ledger.filterVouchers w).Pairwise fun s t => s.2 < t.2 := by
  rw [filterVouchers_eq]
  exact (zipIdx_ascending ledger).filter _

end Ledger

/-- A selection of postings names each place once, in the order of the ledger. -/
theorem PostingQuery.select_ascending (q : PostingQuery) (ledger : Ledger) :
    (q.select ledger).Pairwise fun a b => a.1.Before b.1 := by
  rw [select_eq]
  exact List.pairwise_map.2 (ledger.postings_ascending.filter _)

/-! ## Vouchers by their details -/

namespace VoucherFilter

theorem accepts_wildcard (v : Voucher) : wildcard.accepts v = true := by
  simp [accepts, acceptsGiven, wildcard, acceptsText]

/-- Asked for some detail and nothing else, a filter looks at the details alone. -/
theorem accepts_withAnyDetail (q : Query DetailFilter) (v : Voucher) :
    (wildcard.withAnyDetail q).accepts v = v.details.any fun d => q.holds Filter.accepts d := by
  rw [← funext q.accepts_compile]
  simp [accepts, acceptsGiven, withAnyDetail, wildcard, acceptsText]

theorem accepts_withAllDetails (q : Query DetailFilter) (v : Voucher) :
    (wildcard.withAllDetails q).accepts v = v.details.all fun d => q.holds Filter.accepts d := by
  rw [← funext q.accepts_compile]
  simp [accepts, acceptsGiven, withAllDetails, wildcard, acceptsText]

end VoucherFilter

theorem DetailFilter.accepts_wildcard (d : Detail) : wildcard.accepts d = true := by
  simp [accepts, wildcard, Direction.accepts, acceptsSubTitle, acceptsValue, acceptsText]

namespace Ledger

theorem filterVouchers_withAnyDetail (ledger : Ledger) (q : Query DetailFilter) :
    ledger.filterVouchers (.leaf (.withAnyDetail .wildcard q)) = ledger.vouchersWith q := by
  rw [filterVouchers_eq, vouchersWith_eq]
  exact List.filter_congr fun s _ => VoucherFilter.accepts_withAnyDetail q s.1

/-- All details match where no detail matches the complement. -/
theorem filterVouchers_withAllDetails (ledger : Ledger) (q : Query DetailFilter) :
    ledger.filterVouchers (.leaf (.withAllDetails .wildcard q)) =
      ledger.filterVouchers (.complement (.leaf (.withAnyDetail .wildcard q.complement))) := by
  rw [filterVouchers_eq, filterVouchers_eq]
  refine List.filter_congr fun s _ => ?_
  have hall := VoucherFilter.accepts_withAllDetails q s.1
  have hany := VoucherFilter.accepts_withAnyDetail q.complement s.1
  calc (VoucherFilter.wildcard.withAllDetails q).accepts s.1
      = s.1.details.all fun d => q.holds Filter.accepts d := hall
    _ = !s.1.details.any fun d => !q.holds Filter.accepts d := by
        rw [List.not_any_eq_all_not]
        simp
    _ = !(VoucherFilter.wildcard.withAnyDetail q.complement).accepts s.1 := by
        rw [hany]
        rfl

theorem vouchersWith_ascending (ledger : Ledger) (q : Query DetailFilter) :
    (ledger.vouchersWith q).Pairwise fun s t => s.2 < t.2 := by
  rw [vouchersWith_eq]
  exact (zipIdx_ascending ledger).filter _

theorem mem_sources_selectDetails {ledger : Ledger} {q : Query DetailFilter}
    {s : Voucher × Nat} :
    s ∈ (ledger.selectDetails q).map (·.1.source) ↔ s ∈ ledger.vouchersWith q := by
  rw [List.mem_map, mem_vouchersWith]
  constructor
  · rintro ⟨e, he, rfl⟩
    obtain ⟨hstands, hmeans, -⟩ := mem_selectDetails.1 he
    exact ⟨hstands.voucher, e.1.detail, List.mem_of_getElem? hstands.detail, hmeans⟩
  · rintro ⟨hvoucher, d, hd, hmeans⟩
    obtain ⟨place, hplace⟩ := List.mem_iff_getElem?.1 hd
    have hstands : (⟨s.1, s.2, d, place⟩ : Posting).StandsIn ledger := ⟨hvoucher, hplace⟩
    exact ⟨(⟨s.1, s.2, d, place⟩, d.fund), mem_selectDetails.2 ⟨hstands, hmeans, rfl⟩, rfl⟩

/-- The vouchers of the postings that a query selects, each once, are the vouchers with some
    detail that it matches. -/
theorem sources_selectDetails (ledger : Ledger) (q : Query DetailFilter) :
    ((ledger.selectDetails q).map (·.1.source)).dedup = ledger.vouchersWith q := by
  have hascending := ledger.vouchersWith_ascending q
  have hnodup : (ledger.vouchersWith q).Nodup := hascending.imp fun h heq => by simp [heq] at h
  have hperm : ((ledger.selectDetails q).map (·.1.source)).dedup.Perm (ledger.vouchersWith q) :=
    (List.perm_ext_iff_of_nodup (List.nodup_dedup _) hnodup).2 fun s => by
      rw [List.mem_dedup, mem_sources_selectDetails]
  -- both lists go up by place, and what stands at a place is one voucher
  have hsources : ((ledger.selectDetails q).map (·.1.source)).Pairwise fun s t => s.2 ≤ t.2 := by
    refine List.pairwise_map.2 ((PostingQuery.select_ascending ⟨none, some q⟩ ledger).imp ?_)
    rintro a b (hlt | ⟨heq, -⟩)
    · exact Nat.le_of_lt hlt
    · exact Nat.le_of_eq heq
  refine hperm.eq_of_pairwise ?_ (hsources.sublist (List.dedup_sublist _))
    (hascending.imp Nat.le_of_lt)
  intro s t hs ht hst hts
  obtain ⟨hs, -⟩ := mem_vouchersWith.1 (mem_sources_selectDetails.1 (List.mem_dedup.1 hs))
  obtain ⟨ht, -⟩ := mem_vouchersWith.1 ht
  rw [Nat.le_antisymm hst hts, ht, Option.some.injEq] at hs
  exact Prod.ext hs.symm (Nat.le_antisymm hst hts)

end Ledger

/-! ## Both sides of a query -/

namespace PostingQuery

/-- A side that is missing is the query of the filter that asks for nothing. -/
theorem selects_eq (q : PostingQuery) (p : Posting) :
    q.selects p = ((q.vouchers.getD (.leaf .wildcard)).holds Filter.accepts p.voucher &&
      (q.details.getD (.leaf .wildcard)).holds Filter.accepts p.detail) := by
  have hvoucher := VoucherFilter.accepts_wildcard p.voucher
  have hdetail := DetailFilter.accepts_wildcard p.detail
  obtain ⟨vouchers, details⟩ := q
  cases vouchers <;> cases details <;>
    simp [selects, Query.holds, Filter.accepts, hvoucher, hdetail]

/-- A query selects those of the details that its vouchers have. -/
theorem select_eq_filter (q : PostingQuery) (ledger : Ledger) :
    q.select ledger = (ledger.selectDetails (q.details.getD (.leaf .wildcard))).filter fun e =>
      e.1.source ∈ ledger.filterVouchers (q.vouchers.getD (.leaf .wildcard)) := by
  rw [Ledger.selectDetails_eq, select_eq, select_eq, List.filter_map, List.filter_filter]
  refine congrArg _ (List.filter_congr fun p hp => ?_)
  have hplace := (Ledger.mem_postings.1 hp).voucher
  have hmem : p.source ∈ ledger.filterVouchers (q.vouchers.getD (.leaf .wildcard)) ↔
      (q.vouchers.getD (.leaf .wildcard)).holds Filter.accepts p.voucher = true := by
    rw [Ledger.mem_filterVouchers, Query.holds_voucher_iff]
    exact and_iff_right hplace
  rw [selects_eq, Bool.eq_iff_iff]
  simp [hmem, selects]

end PostingQuery

/-! ## Agreement -/

/-- How the ways of selecting from a ledger are related. -/
structure Ledger.SelectionsAgree (ledger : Ledger) : Prop where
  mem_vouchersWith : ∀ q s, s ∈ ledger.vouchersWith q ↔
    ledger[s.2]? = some s.1 ∧ ∃ d ∈ s.1.details, q.Means DetailFilter.Matches d
  mem_filterVouchers : ∀ w s, s ∈ ledger.filterVouchers w ↔
    ledger[s.2]? = some s.1 ∧ w.Means VoucherFilter.Matches s.1
  mem_selectDetails : ∀ q e, e ∈ ledger.selectDetails q ↔
    e.1.StandsIn ledger ∧ q.Means DetailFilter.Matches e.1.detail ∧ e.2 = e.1.detail.fund
  /-- Vouchers are selected in ledger order, each place once. -/
  vouchers_ascending : ∀ w, (ledger.filterVouchers w).Pairwise fun s t => s.2 < t.2
  /-- So are postings. -/
  postings_ascending : ∀ q : PostingQuery, (q.select ledger).Pairwise fun a b => a.1.Before b.1
  /-- A query over the details finds the vouchers that a filter with it accepts. -/
  any_detail : ∀ q,
    ledger.filterVouchers (.leaf (.withAnyDetail .wildcard q)) = ledger.vouchersWith q
  /-- It finds the vouchers of the postings that it selects. -/
  sources : ∀ q, ((ledger.selectDetails q).map (·.1.source)).dedup = ledger.vouchersWith q
  /-- All details match where none matches the complement. -/
  all_details : ∀ q, ledger.filterVouchers (.leaf (.withAllDetails .wildcard q)) =
    ledger.filterVouchers (.complement (.leaf (.withAnyDetail .wildcard q.complement)))
  without_details : ∀ q v place, ledger[place]? = some v → v.details = [] →
    (v, place) ∈ ledger.filterVouchers (.leaf (.withAllDetails .wildcard q))
  /-- A query with two sides selects the postings of the one that are in vouchers of the other,
      and a side that is missing is the filter that asks for nothing. -/
  select_eq : ∀ q : PostingQuery, q.select ledger =
    (ledger.selectDetails (q.details.getD (.leaf .wildcard))).filter fun e =>
      e.1.source ∈ ledger.filterVouchers (q.vouchers.getD (.leaf .wildcard))
  every_voucher : ∀ v, (Query.leaf VoucherFilter.wildcard).Means VoucherFilter.Matches v
  every_detail : ∀ d, (Query.leaf DetailFilter.wildcard).Means DetailFilter.Matches d

/-- Whichever way vouchers and details are selected, it is by the meaning of the queries and in
    the order of the ledger, so the ways agree. -/
theorem Ledger.selections_agree (ledger : Ledger) : ledger.SelectionsAgree where
  mem_vouchersWith _ _ := Ledger.mem_vouchersWith
  mem_filterVouchers _ _ := Ledger.mem_filterVouchers
  mem_selectDetails _ _ := Ledger.mem_selectDetails
  vouchers_ascending := ledger.filterVouchers_ascending
  postings_ascending q := q.select_ascending ledger
  any_detail := ledger.filterVouchers_withAnyDetail
  sources := ledger.sources_selectDetails
  all_details := ledger.filterVouchers_withAllDetails
  without_details q v place hplace hnil := by
    rw [filterVouchers_eq, List.mem_filter, List.mem_zipIdx_iff_getElem?]
    refine ⟨hplace, (VoucherFilter.accepts_withAllDetails q v).trans ?_⟩
    rw [hnil, List.all_nil]
  select_eq q := q.select_eq_filter ledger
  every_voucher v := Query.holds_voucher_iff.1 (VoucherFilter.accepts_wildcard v)
  every_detail d := Query.holds_detail_iff.1 (DetailFilter.accepts_wildcard d)

end Bookkeeping
