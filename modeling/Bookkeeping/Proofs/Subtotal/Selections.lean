import Bookkeeping.Proofs.Query.Selection
import Bookkeeping.Proofs.Subtotal.GroupBy

set_option autoImplicit false

/-! # Subtotals of selections

What a query over the details adds to a group is the sum over the postings of that group that the
query matches. Selections by different queries over one ledger are parts of one list, so the sums
of their groups obey inclusion and exclusion, path by path. -/

namespace Bookkeeping.Subtotal

open Decimal (ExactlySummable)

/-! ## Sums of groups -/

/-- The value of the group at the end of a path, zero if there is none. -/
def Tree.fundAt (t : Tree) (path : List Key) : ℚ :=
  ((t.descend? path).map (·.fund.toRat)).getD 0

theorem Tree.descend?_append (t : Tree) (front back : List Key) :
    t.descend? (front ++ back) = (t.descend? front).bind (·.descend? back) := by
  induction front generalizing t with
  | nil => rfl
  | cons key rest ih =>
      rw [List.cons_append, descend?, descend?, Option.bind_assoc]
      exact congrArg _ (funext ih)

/-- No path leads below the last level. -/
theorem Tree.Groups.descend?_eq_none {spec : Spec} {records : List (Posting × Decimal)} {t : Tree}
    (h : t.Groups spec records) {path : List Key}
    (hlong : spec.effectiveLevels.length < path.length) : t.descend? path = none := by
  obtain ⟨front, key, rest, hpath, hfront⟩ : ∃ front key rest,
      path = front ++ key :: rest ∧ front.length = spec.effectiveLevels.length := by
    obtain ⟨key, rest, hdrop⟩ := List.exists_cons_of_ne_nil
      (List.ne_nil_of_length_pos (List.length_drop ▸ Nat.sub_pos_of_lt hlong))
    refine ⟨path.take spec.effectiveLevels.length, key, rest, ?_, ?_⟩
    · rw [← hdrop, List.take_append_drop]
    · exact List.length_take_of_le (Nat.le_of_lt hlong)
  rw [hpath, descend?_append]
  cases hnode : t.descend? front with
  | none => rfl
  | some node =>
      have hchildren := (h.last front node hfront hnode).1
      rw [Option.bind_some, descend?, child?, hchildren]
      rfl

/-- Every group of a grouping is worth the sum of its records, and so is one that is missing. -/
theorem Tree.Groups.fundAt_eq {spec : Spec} {records : List (Posting × Decimal)} {t : Tree}
    (h : t.Groups spec records) (path : List Key) :
    t.fundAt path = ((spec.recordsAt path records).map (·.2.toRat)).sum := by
  have hmissing : t.descend? path = none → spec.recordsAt path records = [] := by
    intro hnone
    refine List.filter_eq_nil_iff.2 fun r hr hstart => ?_
    have hprefix := List.isPrefixOf_iff_prefix.1 hstart
    have hlength := spec.length_keysOf r.1 ▸ hprefix.length_le
    have hfound := (h.found path hlength).2 (.inr ⟨r, hr, hprefix⟩)
    rw [hnone] at hfound
    cases hfound
  unfold fundAt
  cases hnode : t.descend? path with
  | none => rw [hmissing hnode]; rfl
  | some node =>
      rcases Nat.lt_or_ge spec.effectiveLevels.length path.length with hlong | hlength
      · rw [h.descend?_eq_none hlong] at hnode
        cases hnode
      · exact h.fund_eq path node hlength hnode

/-! ## Subtotals that exist -/

section Exists

variable {spec : Spec} {rates : RateLookup} {entries records : List (Posting × Decimal)}

/-- Postings whose amounts convert and then add up exactly can all be entered. -/
theorem enterAll_summable (hconvert : spec.convertAll rates entries = .ok records)
    (hsum : ExactlySummable (records.map (·.2))) :
    ∃ all, entries.foldlM (enterPosting spec rates) .empty = .ok all ∧ all.root.key = .root ∧
      all.root.Holds spec.effectiveLevels.length (spec.entriesOf records) := by
  have hadds : Decimal.Adds (amounts ([] ++ spec.entriesOf records)) := by
    rw [List.nil_append, amounts_entriesOf]
    exact hsum.adds
  obtain ⟨all, hall⟩ := enterAll_ok (Grouping.holds_empty _) hconvert hadds
  obtain ⟨found, hfound, hkey, hholds⟩ := holds_enterAll (Grouping.holds_empty _) hall
  rw [hconvert] at hfound
  cases hfound
  exact ⟨all, hall, hkey, hholds⟩

theorem ofPostings_eq_ok {all : Grouping} {tree : Tree}
    (hall : entries.foldlM (enterPosting spec rates) .empty = .ok all)
    (hfinish : all.root.finish spec true spec.effectiveLevels.length = .ok (some tree)) :
    ofPostings spec rates entries = .ok tree := by
  unfold ofPostings
  rw [hall, ok_bind, hfinish]
  rfl

/-- Without running balances and without dropping groups, nothing else can fail. -/
theorem groups_ofPostings_plain (hkeep : spec.prunes = false) (hseries : spec.series = .none)
    (hvouchers : spec.gather ≠ .voucherCount)
    (hconvert : spec.convertAll rates entries = .ok records)
    (hsum : ExactlySummable (records.map (·.2))) :
    ∃ tree, ofPostings spec rates entries = .ok tree ∧ tree.Groups spec records := by
  obtain ⟨all, hall, hkey, hholds⟩ := enterAll_summable hconvert hsum
  have hread : ∀ part : List Movement, (part.map (·.2)).Sublist (amounts (spec.entriesOf records)) →
      ∃ readings, Group.readings spec.series part = .ok readings := by
    intro part _
    rw [hseries]
    exact ⟨[], rfl⟩
  obtain ⟨tree?, hfinish⟩ :
      ∃ tree?, all.root.finish spec true spec.effectiveLevels.length = .ok tree? :=
    hholds.finish_ok hkeep hread
  obtain ⟨tree, rfl, htreeKey, hshows⟩ := hholds.finish hkeep hfinish
  exact ⟨tree, ofPostings_eq_ok hall hfinish, hshows.groups (htreeKey.trans hkey) hvouchers hsum⟩

/-- The amounts of some of the postings convert to the same amounts. -/
theorem convertAll_filter (hconvert : spec.convertAll rates entries = .ok records)
    (p : Posting → Bool) :
    spec.convertAll rates (entries.filter fun e => p e.1) =
      .ok (records.filter fun r => p r.1) := by
  induction entries generalizing records with
  | nil =>
      cases hconvert
      rfl
  | cons entry rest ih =>
      obtain ⟨posting, amount⟩ := entry
      obtain ⟨converted, others, hconverted, hothers, rfl⟩ := convertAll_cons.1 hconvert
      rw [List.filter_cons, List.filter_cons]
      split
      · exact convertAll_cons.2 ⟨converted, _, hconverted, ih hothers, rfl⟩
      · exact ih hothers

end Exists

/-! ## Inclusion and exclusion -/

/-- The value of the group at the end of a path, in the subtotal of what a query over the details
    selects. -/
def selectedFund (spec : Spec) (rates : RateLookup) (ledger : Ledger)
    (vouchers : Option (Query VoucherFilter)) (details : Option (Query DetailFilter))
    (path : List Key) : Except Failure ℚ := do
  let tree ← ofPostings spec rates ((⟨vouchers, details⟩ : PostingQuery).select ledger)
  return tree.fundAt path

theorem select_details (vouchers : Option (Query VoucherFilter))
    (details : Option (Query DetailFilter)) (ledger : Ledger) :
    (⟨vouchers, details⟩ : PostingQuery).select ledger =
      ((⟨vouchers, none⟩ : PostingQuery).select ledger).filter fun e =>
        details.all (·.holds Filter.accepts e.1.detail) := by
  rw [PostingQuery.select_eq, PostingQuery.select_eq, List.filter_map, List.filter_filter]
  congr 2
  funext p
  simp [PostingQuery.selects, Bool.and_comm]

/-- The sum over the records of a group that a query over the details matches. -/
def Spec.matchedFund (spec : Spec) (records : List (Posting × Decimal))
    (details : Option (Query DetailFilter)) (path : List Key) : ℚ :=
  ((spec.recordsAt path records).map fun r =>
    bif details.all (·.holds Filter.accepts r.1.detail) then r.2.toRat else 0).sum

theorem sum_map_filter {α : Type} (l : List α) (p : α → Bool) (f : α → ℚ) :
    ((l.filter p).map f).sum = (l.map fun a => bif p a then f a else 0).sum := by
  induction l with
  | nil => rfl
  | cons a rest ih =>
      rw [List.filter_cons, List.map_cons, List.sum_cons, ← ih]
      cases p a with
      | true => rw [if_pos rfl, List.map_cons, List.sum_cons, cond_true]
      | false => rw [if_neg Bool.false_ne_true, cond_false, zero_add]

/-- The selections of all queries over the details are parts of the selection without one. -/
theorem selectedFund_eq {spec : Spec} {rates : RateLookup} {ledger : Ledger}
    {vouchers : Option (Query VoucherFilter)} {records : List (Posting × Decimal)}
    (hgather : spec.gather = .all ∨ spec.gather = .count) (hseries : spec.series = .none)
    (hconvert : spec.convertAll rates ((⟨vouchers, none⟩ : PostingQuery).select ledger) =
      .ok records)
    (hsum : ExactlySummable (records.map (·.2))) (details : Option (Query DetailFilter))
    (path : List Key) :
    selectedFund spec rates ledger vouchers details path =
      .ok (spec.matchedFund records details path) := by
  have hkeep : spec.prunes = false := by
    rcases hgather with hall | hcount
    · simp [Spec.prunes, hall]
    · simp [Spec.prunes, hcount]
  have hvouchers : spec.gather ≠ .voucherCount := by
    rcases hgather with hall | hcount
    · simp [hall]
    · simp [hcount]
  have hpart := convertAll_filter hconvert fun p => details.all (·.holds Filter.accepts p.detail)
  rw [← select_details] at hpart
  obtain ⟨tree, htree, hgroups⟩ := groups_ofPostings_plain hkeep hseries hvouchers hpart
    (hsum.subperm (List.filter_sublist.map _).subperm)
  rw [selectedFund, htree, ok_bind, hgroups.fundAt_eq, Spec.recordsAt, List.filter_comm,
    sum_map_filter]
  rfl

/-- Sums and numbers of postings obey inclusion and exclusion: at every path, whether it leads to a
    group or not, the value of a union and that of an intersection are together those of the
    operands, a difference takes away the intersection, a complement takes the operand away from
    what is selected without a query over the details, and an identity or an operation that lacks
    its right operand changes nothing. -/
theorem selectedFund_inclusion_exclusion (spec : Spec) (rates : RateLookup) (ledger : Ledger)
    (vouchers : Option (Query VoucherFilter)) (records : List (Posting × Decimal))
    (hgather : spec.gather = .all ∨ spec.gather = .count) (hseries : spec.series = .none)
    (hconvert : spec.convertAll rates ((⟨vouchers, none⟩ : PostingQuery).select ledger) =
      .ok records)
    (hsum : ExactlySummable (records.map (·.2))) :
    ∃ fund : Option (Query DetailFilter) → List Key → ℚ,
      (∀ details path,
        selectedFund spec rates ledger vouchers details path = .ok (fund details path)) ∧
      ∀ (a b : Query DetailFilter) (path : List Key),
        fund (some (a.union b)) path + fund (some (a.intersect b)) path =
          fund (some a) path + fund (some b) path ∧
        fund (some (a.subtract b)) path =
          fund (some a) path - fund (some (a.intersect b)) path ∧
        fund (some a.complement) path = fund none path - fund (some a) path ∧
        fund (some a.identity) path = fund (some a) path ∧
        ∀ op, fund (some (.dangling op a)) path = fund (some a) path := by
  refine ⟨spec.matchedFund records, selectedFund_eq hgather hseries hconvert hsum, ?_⟩
  intro a b path
  -- term by term, both sides ask the same two questions about a record
  refine ⟨?_, ?_, ?_, rfl, fun op => rfl⟩
  · simp only [Spec.matchedFund, ← List.sum_map_add]
    refine congrArg List.sum (List.map_congr_left fun r _ => ?_)
    simp only [Option.all_some, Query.union, Query.intersect, Query.holds, BinaryOperator.combine]
    cases a.holds Filter.accepts r.1.detail <;> cases b.holds Filter.accepts r.1.detail <;> simp
  · rw [eq_sub_iff_add_eq]
    simp only [Spec.matchedFund, ← List.sum_map_add]
    refine congrArg List.sum (List.map_congr_left fun r _ => ?_)
    simp only [Option.all_some, Query.subtract, Query.intersect, Query.holds,
      BinaryOperator.combine]
    cases a.holds Filter.accepts r.1.detail <;> cases b.holds Filter.accepts r.1.detail <;> simp
  · rw [eq_sub_iff_add_eq]
    simp only [Spec.matchedFund, ← List.sum_map_add]
    refine congrArg List.sum (List.map_congr_left fun r _ => ?_)
    simp only [Option.all_some, Option.all_none, Query.complement, Query.holds]
    cases a.holds Filter.accepts r.1.detail <;> simp

/-- Lunch, paid in cash. -/
def lunch : Ledger :=
  [{ Voucher.dated ⟨2024, 1, 5, by decide⟩ with
      details := [.ofTitle 1001 (cents (-250)), .ofTitle 6602 (cents 250)] }]

/-- What is taken from an account. -/
def credits : Query DetailFilter := .leaf { DetailFilter.wildcard with direction := .credit }

/-- What is spent on meals. -/
def meals : Query DetailFilter := .leaf { DetailFilter.wildcard with title := some 6602 }

theorem selectedFund_inclusion_exclusion_lunch :
    ∃ fund : Option (Query DetailFilter) → List Key → ℚ,
      (∀ details path, selectedFund (.ofLevels [.title]) (fun _ _ _ => none) lunch none details path =
        .ok (fund details path)) ∧
      ∀ path, fund (some (credits.union meals)) path + fund (some (credits.intersect meals)) path =
        fund (some credits) path + fund (some meals) path := by
  have hsum : ExactlySummable [cents (-250), cents 250] :=
    ⟨2, .of_scale_le (by decide) (by decide) (by decide +kernel)⟩
  obtain ⟨fund, hfund, hlaws⟩ := selectedFund_inclusion_exclusion (.ofLevels [.title])
    (fun _ _ _ => none) lunch none _ (.inl rfl) rfl rfl hsum
  exact ⟨fund, hfund, fun path => (hlaws credits meals path).1⟩

end Bookkeeping.Subtotal
