import Bookkeeping.Proofs.Query.Compilation
import Bookkeeping.Query.Selection

set_option autoImplicit false

/-! # What is selected

Whatever way postings are fetched from a ledger, those selected are the postings of the ledger that
both sides of the query match, in ledger order. -/

namespace Bookkeeping

/-- All postings of a ledger, voucher by voucher. -/
def Ledger.postings (ledger : Ledger) : List Posting :=
  ledger.zipIdx.flatMap fun (v, place) => v.postings place

/-- Whether both sides of a query match a posting; a side that is missing matches everything. -/
def PostingQuery.selects (q : PostingQuery) (p : Posting) : Bool :=
  q.vouchers.all (·.holds Filter.accepts p.voucher) &&
    q.details.all (·.holds Filter.accepts p.detail)

theorem accepts_elim_compile {α τ : Type} [Filter α τ] (q : Option (Query α)) (item : τ) :
    (q.elim Predicate.always (·.compile)).accepts item = q.all (·.holds Filter.accepts item) := by
  cases q with
  | none => rfl
  | some q => exact q.accepts_compile item

theorem Voucher.voucher_of_mem_postings {v : Voucher} {place : Nat} {p : Posting}
    (h : p ∈ v.postings place) : p.voucher = v ∧ p.voucherPlace = place := by
  obtain ⟨d, _, rfl⟩ := List.mem_map.1 h
  exact ⟨rfl, rfl⟩

theorem Voucher.detail_of_mem_postings {v : Voucher} {place : Nat} {p : Posting}
    (h : p ∈ v.postings place) : p.detail ∈ v.details := by
  obtain ⟨⟨d, detailPlace⟩, hd, rfl⟩ := List.mem_map.1 h
  exact List.fst_mem_of_mem_zipIdx hd

theorem Query.holds_detail_iff {q : Query DetailFilter} {d : Detail} :
    q.holds Filter.accepts d = true ↔ q.Means DetailFilter.Matches d :=
  holds_iff (fun f => f.accepts_iff d) q

theorem Query.holds_voucher_iff {w : Query VoucherFilter} {v : Voucher} :
    w.holds Filter.accepts v = true ↔ w.Means VoucherFilter.Matches v :=
  holds_iff (fun f => f.accepts_iff v) w

/-- A voucher that is not matched has no postings that are. -/
theorem Voucher.filter_postings (q : PostingQuery) (v : Voucher) (place : Nat) :
    (v.postings place).filter q.selects =
      if q.vouchers.all (·.holds Filter.accepts v) then
        (v.postings place).filter fun p => q.details.all (·.holds Filter.accepts p.detail)
      else [] := by
  have hvoucher : ∀ p ∈ v.postings place, q.selects p =
      (q.vouchers.all (·.holds Filter.accepts v) &&
        q.details.all (·.holds Filter.accepts p.detail)) := by
    intro p hp
    rw [PostingQuery.selects, (voucher_of_mem_postings hp).1]
  rw [List.filter_congr hvoucher]
  split
  · next h => simp only [h, Bool.true_and]
  · next h => simp [h]

/-- What a query selects are the postings of the ledger that it matches, in their order. -/
theorem PostingQuery.select_eq (q : PostingQuery) (ledger : Ledger) :
    q.select ledger = (ledger.postings.filter q.selects).map fun p => (p, p.detail.fund) := by
  rw [select, Ledger.fetch, Ledger.postings, List.filter_flatMap]
  congr 1
  simp only [accepts_elim_compile, Voucher.filter_postings]
  induction ledger.zipIdx with
  | nil => rfl
  | cons entry rest ih =>
      rw [List.filter_cons, List.flatMap_cons, ← ih]
      split <;> rfl

/-- What is selected is a detail of its voucher, and each side of the query means it. -/
theorem PostingQuery.means_of_mem_select {q : PostingQuery} {ledger : Ledger}
    {entry : Posting × Decimal} (h : entry ∈ q.select ledger) :
    entry.1.detail ∈ entry.1.voucher.details ∧
      (∀ vouchers ∈ q.vouchers, vouchers.Means VoucherFilter.Matches entry.1.voucher) ∧
      ∀ details ∈ q.details, details.Means DetailFilter.Matches entry.1.detail := by
  rw [select_eq] at h
  obtain ⟨p, hp, rfl⟩ := List.mem_map.1 h
  obtain ⟨hposting, hselects⟩ := List.mem_filter.1 hp
  obtain ⟨⟨v, place⟩, _, hmem⟩ := List.mem_flatMap.1 hposting
  rw [selects, Bool.and_eq_true, Option.all_eq_true, Option.all_eq_true] at hselects
  refine ⟨?_, ?_, ?_⟩
  · rw [(Voucher.voucher_of_mem_postings hmem).1]
    exact Voucher.detail_of_mem_postings hmem
  · intro vouchers hvouchers
    exact Query.holds_voucher_iff.1 (hselects.1 vouchers hvouchers)
  · intro details hdetails
    exact Query.holds_detail_iff.1 (hselects.2 details hdetails)

end Bookkeeping
