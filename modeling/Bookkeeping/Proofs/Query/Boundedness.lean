import Bookkeeping.Proofs.Query.Selection

set_option autoImplicit false

/-! # Bounded queries are pinned

A query that is judged bounded really limits what it selects: whatever it matches is matched by
one of its filters that is bounded itself.

The judgment works through a list of frames with a stack of truth values. It is the recursion
`Query.lacksBound`: judging a query puts its verdict on the stack and leaves the frames behind it
and the values below alone. From the recursion on, the proof follows the tree: a union is bounded
when both sides are, so whichever side matches will do; an intersection matches on both sides, so
the bounded one will do.

Details and vouchers are pinned one inside the other. A voucher filter may be bounded by its query
over the details alone, asked of some detail or of all; since what is selected is a detail, its
voucher has one, and the query pins that. -/

namespace Bookkeeping

variable {α τ : Type}

/-! ## The judgment is the recursion -/

namespace Query

/-- Judging a query puts its verdict on top of the judgments. -/
theorem judgeAll_judge [Filter α τ] (q : Query α) (rest : List (Frame α)) (judgments : List Bool) :
    judgeAll (.judge q :: rest) judgments =
      judgeAll rest (q.lacksBound Filter.isUnbounded :: judgments) := by
  induction q generalizing rest judgments with
  | leaf f =>
      rw [judgeAll]
      rfl
  | unary op q ih =>
      cases op with
      | identity =>
          rw [judgeAll]
          exact ih rest judgments
      | complement =>
          rw [judgeAll]
          rfl
  | binary op l r ihl ihr =>
      -- both operands are judged before their judgments are joined, the right one on top
      cases op with
      | subtract =>
          rw [judgeAll, if_pos rfl]
          exact ihl rest judgments
      | union =>
          rw [judgeAll, if_neg (by decide), ihl, ihr, judgeAll]
          rfl
      | intersect =>
          rw [judgeAll, if_neg (by decide), ihl, ihr, judgeAll]
          rfl
  | dangling op l ih =>
      rw [judgeAll]
      exact ih rest judgments

theorem isUnbounded_eq_lacksBound [Filter α τ] (q : Query α) :
    q.isUnbounded = q.lacksBound Filter.isUnbounded := by
  rw [isUnbounded, judgeAll_judge, judgeAll]
  rfl

/-- What a bounded query matches is matched by one of its filters that is bounded itself. -/
theorem exists_bounded_leaf {unbounded : α → Bool} {matched : α → τ → Prop} {item : τ} {q : Query α}
    (hbound : q.lacksBound unbounded = false) (hmeans : q.Means matched item) :
    ∃ f ∈ q.leaves, unbounded f = false ∧ matched f item := by
  induction q with
  | leaf f => exact ⟨f, List.mem_singleton_self f, hbound, hmeans⟩
  | unary op q ih =>
      cases op with
      | identity => exact ih hbound hmeans
      | complement => cases hbound
  | binary op l r ihl ihr =>
      have hleft (h : l.lacksBound unbounded = false) (hl : l.Means matched item) :
          ∃ f ∈ (binary op l r).leaves, unbounded f = false ∧ matched f item := by
        obtain ⟨f, hf, hfound⟩ := ihl h hl
        exact ⟨f, List.mem_append_left _ hf, hfound⟩
      have hright (h : r.lacksBound unbounded = false) (hr : r.Means matched item) :
          ∃ f ∈ (binary op l r).leaves, unbounded f = false ∧ matched f item := by
        obtain ⟨f, hf, hfound⟩ := ihr h hr
        exact ⟨f, List.mem_append_right _ hf, hfound⟩
      cases op with
      | union =>
          obtain ⟨hl, hr⟩ := Bool.or_eq_false_iff.1 hbound
          rcases hmeans with hmeans | hmeans
          · exact hleft hl hmeans
          · exact hright hr hmeans
      | intersect =>
          rcases Bool.and_eq_false_iff.1 hbound with hl | hr
          · exact hleft hl hmeans.1
          · exact hright hr hmeans.2
      | subtract => exact hleft hbound hmeans.1
  | dangling op l ih => exact ih hbound hmeans

end Query

/-! ## What pins details and vouchers -/

theorem ne_none_of_isNone {part : Option α} (h : part.isNone = false) : part ≠ none :=
  Option.ne_none_iff_isSome.2 (Option.isNone_eq_false_iff.1 h)

/-- A filter pins a detail when it matches it and names a content, a remark or a fund. -/
structure DetailFilter.Pins (f : DetailFilter) (d : Detail) : Prop where
  bounded : Filter.isUnbounded f = false
  item : f.content ≠ none ∨ f.remark ≠ none ∨ f.fund ≠ none
  matched : f.Matches d

theorem DetailFilter.pins_of_matches {f : DetailFilter} {d : Detail}
    (hbound : Filter.isUnbounded f = false) (hmatch : f.Matches d) : f.Pins d := by
  refine ⟨hbound, ?_, hmatch⟩
  have hsome : ((f.content.isNone && f.remark.isNone) && f.fund.isNone) = false := hbound
  rcases Bool.and_eq_false_iff.1 hsome with hsome | hfund
  · rcases Bool.and_eq_false_iff.1 hsome with hcontent | hremark
    · exact .inl (ne_none_of_isNone hcontent)
    · exact .inr (.inl (ne_none_of_isNone hremark))
  · exact .inr (.inr (ne_none_of_isNone hfund))

/-- A bounded query pins every detail that it matches. -/
theorem Query.pins_detail {q : Query DetailFilter} {d : Detail} (hbound : q.isUnbounded = false)
    (hmeans : q.Means DetailFilter.Matches d) : ∃ f ∈ q.leaves, f.Pins d := by
  rw [isUnbounded_eq_lacksBound] at hbound
  obtain ⟨f, hf, hfbound, hmatch⟩ := exists_bounded_leaf hbound hmeans
  exact ⟨f, hf, DetailFilter.pins_of_matches hfbound hmatch⟩

/-- What in a filter for vouchers pins a voucher: its range, the kind, the remark, or a bounded
    query over the details that pins one of them. -/
def VoucherFilter.HasBound (f : VoucherFilter) (v : Voucher) : Prop :=
  (f.range.first ≠ none ∨ f.range.last ≠ none ∨ f.range.nullOnly = true) ∨
    f.kind ≠ none ∨ f.remark ≠ none ∨
    ∃ q ∈ f.details, q.isUnbounded = false ∧ ∃ d ∈ v.details, ∃ g ∈ q.leaves, g.Pins d

/-- A filter pins a voucher when it matches it and something in it bounds it. -/
structure VoucherFilter.Pins (f : VoucherFilter) (v : Voucher) : Prop where
  bounded : Filter.isUnbounded f = false
  matched : f.Matches v
  bound : f.HasBound v

theorem DateRange.bound_of_isUnbounded {r : DateRange} (h : r.isUnbounded = false) :
    r.first ≠ none ∨ r.last ≠ none ∨ r.nullOnly = true := by
  cases hnull : r.nullOnly with
  | true => exact .inr (.inr rfl)
  | false =>
      rcases hfirst : r.first with _ | first
      · rcases hlast : r.last with _ | last
        · simp [isUnbounded, hnull, hfirst, hlast] at h
        · exact .inr (.inl (by simp))
      · exact .inl (by simp)

/-- A bounded filter pins every voucher with details that it matches. -/
theorem VoucherFilter.pins_of_matches {f : VoucherFilter} {v : Voucher}
    (hbound : Filter.isUnbounded f = false) (hmatch : f.Matches v) (hdetails : v.details ≠ []) :
    f.Pins v := by
  refine ⟨hbound, hmatch, ?_⟩
  have hparts : (((f.range.isUnbounded && f.kind.isNone) && f.remark.isNone) &&
      f.details.all (·.isUnbounded)) = false := hbound
  rcases Bool.and_eq_false_iff.1 hparts with hparts | hquery
  · rcases Bool.and_eq_false_iff.1 hparts with hparts | hremark
    · rcases Bool.and_eq_false_iff.1 hparts with hrange | hkind
      · exact .inl (DateRange.bound_of_isUnbounded hrange)
      · exact .inr (.inl (ne_none_of_isNone hkind))
    · exact .inr (.inr (.inl (ne_none_of_isNone hremark)))
  · obtain ⟨q, hq, hunbounded⟩ := (Option.all_eq_false _ _).1 hquery
    -- asked of all details or of some, the query means one that the voucher has
    obtain ⟨d, hd, hmeans⟩ : ∃ d ∈ v.details, q.Means DetailFilter.Matches d := by
      cases hall : f.forAll with
      | true =>
          obtain ⟨d, hd⟩ := List.exists_mem_of_ne_nil _ hdetails
          exact ⟨d, hd, hmatch.all q hq hall d hd⟩
      | false => exact hmatch.any q hq hall
    exact .inr (.inr (.inr ⟨q, hq, hunbounded, d, hd, Query.pins_detail hunbounded hmeans⟩))

/-! ## What is selected is pinned -/

/-- Everything that a bounded query selects is pinned: its detail by a filter of a bounded query
    over the details, or its voucher by one of a bounded query over the vouchers. -/
theorem PostingQuery.select_pinned {q : PostingQuery} (hbound : q.isUnbounded = false)
    (ledger : Ledger) : ∀ entry ∈ q.select ledger,
      (∃ details ∈ q.details, details.isUnbounded = false ∧
        ∃ f ∈ details.leaves, f.Pins entry.1.detail) ∨
      (∃ vouchers ∈ q.vouchers, vouchers.isUnbounded = false ∧
        ∃ f ∈ vouchers.leaves, f.Pins entry.1.voucher) := by
  intro entry hentry
  obtain ⟨hmem, hvouchers, hdetails⟩ := means_of_mem_select hentry
  rcases Bool.and_eq_false_iff.1 hbound with hside | hside
  · obtain ⟨vouchers, hq, hunbounded⟩ := (Option.all_eq_false _ _).1 hside
    refine .inr ⟨vouchers, hq, hunbounded, ?_⟩
    rw [Query.isUnbounded_eq_lacksBound] at hunbounded
    obtain ⟨f, hf, hfbound, hmatch⟩ := Query.exists_bounded_leaf hunbounded (hvouchers _ hq)
    exact ⟨f, hf, VoucherFilter.pins_of_matches hfbound hmatch (List.ne_nil_of_mem hmem)⟩
  · obtain ⟨details, hq, hunbounded⟩ := (Option.all_eq_false _ _).1 hside
    exact .inl ⟨details, hq, hunbounded, Query.pins_detail hunbounded (hdetails _ hq)⟩

/-- The vouchers that are about lunch in all their details. -/
def PostingQuery.onlyLunch : PostingQuery :=
  ⟨some (.leaf (VoucherFilter.wildcard.withAllDetails
    (.leaf { DetailFilter.wildcard with content := some "lunch" }))), none⟩

/-- A voucher with one detail, which is about lunch. -/
def Voucher.lunch : Voucher :=
  { undated with details := [{ Detail.ofTitle 6602 .one with content := some "lunch" }] }

theorem PostingQuery.select_pinned_onlyLunch :
    onlyLunch.isUnbounded = false ∧ (onlyLunch.select [.lunch]).length = 1 ∧
      ∀ entry ∈ onlyLunch.select [.lunch],
        (∃ details ∈ onlyLunch.details, details.isUnbounded = false ∧
          ∃ f ∈ details.leaves, f.Pins entry.1.detail) ∨
        (∃ vouchers ∈ onlyLunch.vouchers, vouchers.isUnbounded = false ∧
          ∃ f ∈ vouchers.leaves, f.Pins entry.1.voucher) := by
  have hbound : onlyLunch.isUnbounded = false := by
    simp [onlyLunch, isUnbounded, Query.isUnbounded_eq_lacksBound, Query.lacksBound,
      Filter.isUnbounded, VoucherFilter.isUnbounded, VoucherFilter.withAllDetails,
      VoucherFilter.wildcard, DetailFilter.wildcard]
  refine ⟨hbound, ?_, select_pinned hbound [.lunch]⟩
  have hmatch : VoucherFilter.Matches (VoucherFilter.wildcard.withAllDetails
      (.leaf { DetailFilter.wildcard with content := some "lunch" })) Voucher.lunch := by
    refine ⟨rfl, by simp [VoucherFilter.withAllDetails, VoucherFilter.wildcard],
      by simp [MatchesText, VoucherFilter.withAllDetails, VoucherFilter.wildcard], ?_, nofun⟩
    rintro q hq - d hd
    cases hq
    rw [List.mem_singleton.1 hd]
    exact (DetailFilter.accepts_iff _ _).1 (by decide)
  rw [select_eq, List.length_map]
  have hselects : onlyLunch.selects ⟨.lunch, 0, Voucher.lunch.details.head (by decide), 0⟩ = true :=
    Bool.and_eq_true_iff.2 ⟨(VoucherFilter.accepts_iff _ _).2 hmatch, rfl⟩
  exact congrArg List.length (List.filter_cons_of_pos hselects)

end Bookkeeping
