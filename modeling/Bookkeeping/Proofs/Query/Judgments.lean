import Bookkeeping.Proofs.Query.Boundedness

set_option autoImplicit false

/-! # The judgment of unbounded queries

`Query.IsWide` says when nothing bounds a query, by recursion over the tree and with nothing but
logic. When a single filter bounds nothing is said part by part (`DetailFilter.IsWide` and its
siblings); for vouchers this includes that nothing bounds the query over the details.

The judgment itself works through a list of frames. `Frame.turn?` is one turn of it, which fails
where a frame that joins two judgments finds fewer, and `Judges` is a run of such turns. A run does
what the judgment does, `judgeAll_of_judges`, and the run over a query goes through and leaves its
verdict on top of what was there: so no judgment is ever missing, and one is left at the end. -/

namespace Bookkeeping

variable {α τ : Type}

/-! ## What lacks a bound -/

/-- Whether nothing bounds a query, when `wide` tells which filters bound nothing. -/
def Query.IsWide (wide : α → Prop) : Query α → Prop
  | .leaf f => wide f
  | .unary .identity q => q.IsWide wide
  | .unary .complement _ => True
  | .binary .union l r => l.IsWide wide ∨ r.IsWide wide
  | .binary .intersect l r => l.IsWide wide ∧ r.IsWide wide
  | .binary .subtract l _ => l.IsWide wide
  | .dangling _ l => l.IsWide wide

/-- A filter for details bounds nothing when it names no content, no remark and no fund. -/
structure DetailFilter.IsWide (f : DetailFilter) : Prop where
  content : f.content = none
  remark : f.remark = none
  fund : f.fund = none

/-- A range of dates bounds nothing when it is open at both ends and not for undated records. -/
structure DateRange.IsWide (r : DateRange) : Prop where
  first : r.first = none
  last : r.last = none
  nullOnly : r.nullOnly = false

/-- A filter for vouchers bounds nothing when its range bounds nothing, it names no kind and no
    remark, and nothing bounds the query over the details, if it has one. -/
structure VoucherFilter.IsWide (f : VoucherFilter) : Prop where
  range : f.range.IsWide
  kind : f.kind = none
  remark : f.remark = none
  details : ∀ q ∈ f.details, q.IsWide DetailFilter.IsWide

/-- A filter for deferred items bounds nothing when it names no identifier, no name and no
    remark. -/
structure DeferredFilter.IsWide (f : DeferredFilter) : Prop where
  id : f.id = none
  name : f.name = none
  remark : f.remark = none

namespace Query

theorem lacksBound_iff {unbounded : α → Bool} {wide : α → Prop}
    (h : ∀ f, unbounded f = true ↔ wide f) (q : Query α) :
    q.lacksBound unbounded = true ↔ q.IsWide wide := by
  induction q with
  | leaf f => exact h f
  | unary op q ih =>
      cases op with
      | identity => exact ih
      | complement => exact iff_of_true rfl trivial
  | binary op l r ihl ihr =>
      cases op with
      | union => rw [lacksBound, IsWide, Bool.or_eq_true, ihl, ihr]
      | intersect => rw [lacksBound, IsWide, Bool.and_eq_true, ihl, ihr]
      | subtract => exact ihl
  | dangling op l ih => exact ih

theorem isUnbounded_iff [Filter α τ] {wide : α → Prop}
    (h : ∀ f, Filter.isUnbounded f = true ↔ wide f) (q : Query α) :
    q.isUnbounded = true ↔ q.IsWide wide := by
  rw [isUnbounded_eq_lacksBound]
  exact lacksBound_iff h q

end Query

theorem DetailFilter.isUnbounded_iff (f : DetailFilter) :
    Filter.isUnbounded f = true ↔ f.IsWide := by
  show (f.content.isNone && f.remark.isNone && f.fund.isNone) = true ↔ _
  simp only [Bool.and_eq_true, Option.isNone_iff_eq_none]
  exact ⟨fun h => ⟨h.1.1, h.1.2, h.2⟩, fun h => ⟨⟨h.content, h.remark⟩, h.fund⟩⟩

theorem DateRange.isUnbounded_iff (r : DateRange) : r.isUnbounded = true ↔ r.IsWide := by
  simp only [isUnbounded, Bool.and_eq_true, Bool.not_eq_true', Option.isNone_iff_eq_none]
  exact ⟨fun h => ⟨h.1.2, h.2, h.1.1⟩, fun h => ⟨⟨h.nullOnly, h.first⟩, h.last⟩⟩

theorem VoucherFilter.isUnbounded_iff (f : VoucherFilter) :
    Filter.isUnbounded f = true ↔ f.IsWide := by
  have hdetails : f.details.all (·.isUnbounded) = true ↔
      ∀ q ∈ f.details, q.IsWide DetailFilter.IsWide := by
    rw [Option.all_eq_true]
    exact forall₂_congr fun q _ => q.isUnbounded_iff DetailFilter.isUnbounded_iff
  show (f.range.isUnbounded && f.kind.isNone && f.remark.isNone &&
    f.details.all (·.isUnbounded)) = true ↔ _
  simp only [Bool.and_eq_true, Option.isNone_iff_eq_none, DateRange.isUnbounded_iff, hdetails]
  exact ⟨fun h => ⟨h.1.1.1, h.1.1.2, h.1.2, h.2⟩,
    fun h => ⟨⟨⟨h.range, h.kind⟩, h.remark⟩, h.details⟩⟩

theorem DeferredFilter.isUnbounded_iff (f : DeferredFilter) :
    Filter.isUnbounded f = true ↔ f.IsWide := by
  show (f.id.isNone && f.name.isNone && f.remark.isNone) = true ↔ _
  simp only [Bool.and_eq_true, Option.isNone_iff_eq_none]
  exact ⟨fun h => ⟨h.1.1, h.1.2, h.2⟩, fun h => ⟨⟨h.id, h.name⟩, h.remark⟩⟩

/-! ## Runs without underflow -/

namespace Query

/-- One turn of the judgment: the frames that the first one leaves in its place, and the judgments
    after it; none if a frame that joins two judgments finds fewer. -/
def Frame.turn? [Filter α τ] : Frame α → List Bool → Option (List (Frame α) × List Bool)
  | .judge (leaf f), judgments => some ([], Filter.isUnbounded f :: judgments)
  | .judge (unary .identity q), judgments => some ([.judge q], judgments)
  | .judge (unary .complement _), judgments => some ([], true :: judgments)
  | .judge (binary .subtract l _), judgments => some ([.judge l], judgments)
  | .judge (binary op l r), judgments => some ([.judge l, .judge r, .join op], judgments)
  | .judge (dangling _ l), judgments => some ([.judge l], judgments)
  | .join op, right :: left :: below => some ([], joinBounds op left right :: below)
  | .join _, _ => none

/-- A run through all frames in which no judgment is missing, from some judgments to others. -/
inductive Judges [Filter α τ] : List (Frame α) → List Bool → List Bool → Prop where
  | done (judgments : List Bool) : Judges [] judgments judgments
  | turn {frame : Frame α} {more rest : List (Frame α)} {judgments next final : List Bool}
      (hturn : frame.turn? judgments = some (more, next))
      (hrest : Judges (more ++ rest) next final) : Judges (frame :: rest) judgments final

/-- A turn does not change what the judgment comes to. -/
theorem judgeAll_of_turn? [Filter α τ] {frame : Frame α} {more : List (Frame α)}
    {judgments next : List Bool} (h : frame.turn? judgments = some (more, next))
    (rest : List (Frame α)) :
    judgeAll (frame :: rest) judgments = judgeAll (more ++ rest) next := by
  cases frame with
  | judge q =>
      cases q with
      | leaf f =>
          cases h
          rw [judgeAll]
          rfl
      | unary op q =>
          cases op with
          | identity =>
              cases h
              rw [judgeAll]
              rfl
          | complement =>
              cases h
              rw [judgeAll]
              rfl
      | binary op l r =>
          cases op with
          | subtract =>
              cases h
              rw [judgeAll, if_pos rfl]
              rfl
          | union =>
              cases h
              rw [judgeAll, if_neg (by decide)]
              rfl
          | intersect =>
              cases h
              rw [judgeAll, if_neg (by decide)]
              rfl
      | dangling op l =>
          cases h
          rw [judgeAll]
          rfl
  | join op =>
      obtain _ | ⟨right, _ | ⟨left, below⟩⟩ := judgments
      · cases h
      · cases h
      · cases h
        rw [judgeAll]
        rfl

theorem judgeAll_of_judges [Filter α τ] {frames : List (Frame α)} {judgments final : List Bool}
    (h : Judges frames judgments final) : judgeAll frames judgments = final := by
  induction h with
  | done judgments => rw [judgeAll]
  | turn hturn _ ih => rw [judgeAll_of_turn? hturn, ih]

/-- A run over a query puts its verdict on top of the judgments and goes on. -/
theorem Judges.judge [Filter α τ] (q : Query α) {rest : List (Frame α)}
    {judgments final : List Bool}
    (h : Judges rest (q.lacksBound Filter.isUnbounded :: judgments) final) :
    Judges (.judge q :: rest) judgments final := by
  induction q generalizing rest judgments with
  | leaf f => exact .turn rfl h
  | unary op q ih =>
      cases op with
      | identity => exact .turn rfl (ih h)
      | complement => exact .turn rfl h
  | binary op l r ihl ihr =>
      -- both operands are judged before their judgments are joined, the right one on top
      cases op with
      | subtract => exact .turn rfl (ihl h)
      | union => exact .turn rfl (ihl (ihr (.turn rfl h)))
      | intersect => exact .turn rfl (ihl (ihr (.turn rfl h)))
  | dangling op l ih => exact .turn rfl (ih h)

/-- What the judgment of a query has to be, when `wide` tells which filters bound nothing. -/
structure IsJudged [Filter α τ] (wide : α → Prop) (q : Query α) : Prop where
  verdict : q.isUnbounded = true ↔ q.IsWide wide
  /-- No judgment is ever missing. -/
  run : Judges [.judge q] [] (judgeAll [.judge q] [])
  /-- One judgment is left at the end. -/
  single : judgeAll [.judge q] [] = [q.isUnbounded]

theorem isJudged [Filter α τ] {wide : α → Prop} (h : ∀ f, Filter.isUnbounded f = true ↔ wide f)
    (q : Query α) : q.IsJudged wide := by
  have hrun : Judges [.judge q] [] [q.isUnbounded] := by
    refine .judge q ?_
    rw [isUnbounded_eq_lacksBound]
    exact .done _
  have hsingle := judgeAll_of_judges hrun
  exact ⟨q.isUnbounded_iff h, hsingle ▸ hrun, hsingle⟩

/-- A query over details, vouchers or deferred items is judged unbounded exactly when nothing in it
    bounds it. No judgment is ever missing on the way, and one is left at the end. -/
theorem isUnbounded_recursive :
    (∀ q : Query DetailFilter, q.IsJudged DetailFilter.IsWide) ∧
      (∀ q : Query VoucherFilter, q.IsJudged VoucherFilter.IsWide) ∧
      ∀ q : Query DeferredFilter, q.IsJudged DeferredFilter.IsWide :=
  ⟨isJudged DetailFilter.isUnbounded_iff, isJudged VoucherFilter.isUnbounded_iff,
    isJudged DeferredFilter.isUnbounded_iff⟩

end Query

end Bookkeeping
