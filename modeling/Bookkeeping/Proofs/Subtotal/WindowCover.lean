import Bookkeeping.Proofs.Calendar.Cycles
import Bookkeeping.Proofs.Subtotal.WindowReadings

set_option autoImplicit false

/-! # The days that readings of a range cover

The windows of a running balance follow one another from the bucket of the first day of the range
on, so together they have every later day of the range in them, and each just once. The bucket of a
day begins behind it only in the cycles of billing and financial months, and there only for a day
past the anchor: then the days before the next anchor are in no window, and where that anchor lies
behind the range too, the one reading there is has a date behind the range.

`sumUpTo` is the balance at the end of a day as amounts are really added, one by one and by date.
Reading by reading the same amounts are added in the same order, so a window that ends in the range
is read at the balance of its last day, rounded sums included. -/

namespace Bookkeeping

/-! ## Windows with a day in them -/

/-- Whether the window of a bucket has a day in it. -/
def Granularity.windowHas (g : Granularity) (d bucket : Date) : Bool :=
  bucket ≤ d && d ≤ g.lastDay bucket

/-- Whether the window that a reading stands for has a day in it. -/
def Reading.covers (r : Reading) (g : Granularity) (d : Date) : Bool :=
  r.date.any (g.windowHas d)

namespace Granularity.Walks

variable {g : Granularity} {finish bucket d : Date} {buckets : List Date}

/-- Up to the end of the range, the windows of a walk have every day from its first bucket on in
    them just once, and no day before that. -/
theorem countP_windowHas (h : g.Walks finish bucket buckets) (hd : d ≤ finish) :
    buckets.countP (g.windowHas d) = if bucket ≤ d then 1 else 0 := by
  induction h with
  | @stop bucket hstop =>
      have hlast : d ≤ g.lastDay bucket :=
        le_lastDay_of_lt fun next hstep => Int.lt_of_le_of_lt hd (hstop next hstep)
      simp [windowHas, hlast]
  | @step bucket next rest hstep hle hrest ih =>
      rw [List.countP_cons, ih]
      by_cases hnext : next ≤ d
      · have hafter : ¬ d ≤ g.lastDay bucket :=
          Int.not_le.2 (Int.lt_of_lt_of_le (lastDay_lt_of_step? hstep) hnext)
        have hbucket : bucket ≤ d := Int.le_trans (Int.le_of_lt (lt_of_step? hstep)) hnext
        simp [windowHas, hnext, hafter, hbucket]
      · have hlast : d ≤ g.lastDay bucket := by
          refine le_lastDay_of_lt fun other hother => ?_
          cases hstep.symm.trans hother
          exact Int.not_le.1 hnext
        simp [windowHas, hnext, hlast]

/-- Only the first bucket of a walk may begin behind the range. -/
theorem le_or_eq (h : g.Walks finish bucket buckets) :
    ∀ b ∈ buckets, b ≤ finish ∨ b = bucket := by
  induction h with
  | stop _ => exact fun b hb => .inr (List.mem_singleton.1 hb)
  | @step bucket next rest hstep hle hrest ih =>
      intro b hb
      rcases List.mem_cons.1 hb with rfl | hb
      · exact .inr rfl
      · rcases ih b hb with hfinish | rfl
        · exact .inl hfinish
        · exact .inl hle

end Granularity.Walks

/-! ## Sums in the order of dates -/

namespace Series

open Decimal (ExactlySummable checkedSum checkedSumFrom)

/-- The balance at the end of a day, with the amounts up to that day added one by one and by date;
    what is undated comes first. -/
def sumUpTo (movements : List Movement) (d : Date) : Except Failure Decimal :=
  checkedSum (((byDate movements).filter fun m => notAfter m.1 (some d)).map (·.2))

/-- From the start of a range on, the amounts up to a day are those before the range and the dated
    ones from its start up to that day. -/
theorem sumUpTo_eq {start last : Date} (h : start ≤ last) (movements : List Movement) :
    sumUpTo movements last =
      checkedSum (((byDate movements).takeWhile (isOpening start)).map (·.2) ++
        ((dated ((byDate movements).dropWhile (isOpening start))).filter (·.1 ≤ last)).map
          (·.2)) := by
  rw [sumUpTo, ← inWindow_eq_notAfter h, amounts_inWindow]

/-- Every window is read at the sum of what is dated up to its end, added to the opening balance
    one by one. -/
theorem readBuckets_sums {g : Granularity} {finish : Date} {opening balance : Decimal}
    {passed pending : List (Date × Decimal)} {buckets : List Date} {readings : List Reading}
    (hsorted : pending.Pairwise fun a b => a.1 ≤ b.1)
    (hlimits : buckets.Pairwise fun a b => limit g finish a ≤ limit g finish b)
    (hpassed : ∀ m ∈ passed, ∀ b ∈ buckets, m.1 ≤ limit g finish b)
    (hbalance : checkedSumFrom opening (passed.map (·.2)) = .ok balance)
    (h : readBuckets g finish balance pending buckets = .ok readings) :
    ∀ r ∈ readings, ∃ b ∈ buckets, r.date = some b ∧
      checkedSumFrom opening (((passed ++ pending).filter (·.1 ≤ limit g finish b)).map (·.2)) =
        .ok r.fund := by
  -- the balance so far is the sum of what is passed, and every window passes some more
  induction buckets generalizing passed pending balance readings with
  | nil =>
      cases h
      simp
  | cons bucket rest ih =>
      obtain ⟨hlater, hlimits⟩ := List.pairwise_cons.1 hlimits
      rw [readBuckets] at h
      obtain ⟨sum, hadd, hread⟩ := bind_eq_ok.1 h
      obtain ⟨more, hmore, hreadings⟩ := bind_eq_ok.1 hread
      cases hreadings
      have hlimit : Date.earlier (g.lastDay bucket) finish = limit g finish bucket := rfl
      rw [hlimit] at hadd hmore
      have hnow := filter_upTo hsorted fun m hm => hpassed m hm bucket List.mem_cons_self
      generalize hp : (fun m : Date × Decimal => decide (m.1 ≤ limit g finish bucket)) = p
        at hadd hmore hnow
      have hsum : checkedSumFrom opening ((passed ++ pending.takeWhile p).map (·.2)) = .ok sum := by
        rw [List.map_append, Decimal.checkedSumFrom_append, hbalance]
        exact hadd
      have hthrough : ∀ m ∈ passed ++ pending.takeWhile p, ∀ b ∈ rest,
          m.1 ≤ limit g finish b := by
        intro m hm b hb
        rw [← hnow, List.mem_filter, ← hp, decide_eq_true_iff] at hm
        exact Int.le_trans hm.2 (hlater b hb)
      have ih := ih (hsorted.sublist (List.dropWhile_sublist p)) hlimits hthrough hsum hmore
      rw [List.append_assoc, List.takeWhile_append_dropWhile] at ih
      intro r hr
      rcases List.mem_cons.1 hr with rfl | hr
      · exact ⟨bucket, List.mem_cons_self, rfl, by rw [hp, hnow, hsum]⟩
      · obtain ⟨b, hb, hdate, hfund⟩ := ih r hr
        exact ⟨b, List.mem_cons_of_mem _ hb, hdate, hfund⟩

/-- What reading a range that two days span comes to. -/
theorem everyDay_of_spans {movements : List Movement} {range : DateRange} {interval : Granularity}
    {start finish : Date} {readings : List Reading}
    (hspans : Spans movements range start finish) (hle : start ≤ finish)
    (h : everyDay movements range interval = .ok readings) :
    ∃ opening,
      checkedSum (((byDate movements).takeWhile (isOpening start)).map (·.2)) = .ok opening ∧
      readBuckets interval finish opening
        (dated ((byDate movements).dropWhile (isOpening start)))
        (interval.bucketsUpTo finish (interval.start start)) = .ok readings := by
  obtain ⟨hstart, hfinish⟩ := spans_iff.1 hspans
  rw [dates, List.head?_map] at hstart
  rw [dates, List.getLast?_map] at hfinish
  have hordered : ¬ finish < start := Int.not_lt.2 hle
  unfold everyDay at h
  dsimp only at h
  rw [hstart, hfinish] at h
  dsimp only at h
  rw [if_neg hordered] at h
  have htest : (fun m : Movement => m.1.all (· < start)) = isOpening start := rfl
  rw [htest, opening_eq_takeWhile, dated_dropWhile] at h
  exact bind_eq_ok.1 h

/-- A window of a range is read at the balance of its last day in the range. -/
theorem everyDay_sums {movements : List Movement} {range : DateRange} {interval : Granularity}
    {start finish : Date} {readings : List Reading}
    (hspans : Spans movements range start finish) (hle : start ≤ finish)
    (h : everyDay movements range interval = .ok readings) :
    readings.map (·.date) = (interval.bucketsUpTo finish (interval.start start)).map some ∧
      ∀ r ∈ readings, ∃ b, r.date = some b ∧
        sumUpTo movements (limit interval finish b) = .ok r.fund := by
  obtain ⟨opening, hopening, hread⟩ := everyDay_of_spans hspans hle h
  refine ⟨readBuckets_dates hread, fun r hr => ?_⟩
  have hwalk := interval.walks_bucketsUpTo finish (interval.start start)
  have hsorted := dated_sorted
    ((byDate_pairwise movements).sublist (List.dropWhile_sublist (isOpening start)))
  have hnone : ∀ m ∈ ([] : List (Date × Decimal)),
      ∀ b ∈ interval.bucketsUpTo finish (interval.start start), m.1 ≤ limit interval finish b := by
    simp
  obtain ⟨b, hb, hdate, hsum⟩ := readBuckets_sums hsorted
    (limits_ascending interval finish (interval.start start)) hnone rfl hread r hr
  have hlast : start ≤ interval.lastDay b :=
    Int.le_trans (interval.le_lastDay_start start) (hwalk.lastDay_le b hb)
  have hlimit : start ≤ limit interval finish b := le_earlier hlast hle
  refine ⟨b, hdate, ?_⟩
  rw [sumUpTo_eq hlimit, checkedSum, Decimal.checkedSumFrom_append]
  exact bind_eq_ok.2 ⟨opening, hopening, hsum⟩

/-- The readings of a range cover its days from the bucket of its first day on. None has a date
    behind the range but, where that bucket begins behind it, the one there is. Each day of the
    range from that bucket on is in the window of exactly one reading, each day before it in none,
    and a window that ends in the range is read at the balance of its last day. The days before
    that bucket are those of a cycle whose anchor day they are past, if the calendar has the anchor
    after it. -/
theorem everyDay_covers_range {movements : List Movement} {range : DateRange}
    {interval : Granularity} {start finish : Date} {readings : List Reading}
    (h : everyDay movements range interval = .ok readings)
    (hspans : Spans movements range start finish) (hle : start ≤ finish) :
    (∀ r ∈ readings, ∃ b, r.date = some b ∧ (b ≤ finish ∨ b = interval.start start)) ∧
      (∀ d, start ≤ d → d ≤ finish →
        readings.countP (·.covers interval d) = if interval.start start ≤ d then 1 else 0) ∧
      (∀ r ∈ readings, ∀ b ∈ r.date, interval.lastDay b ≤ finish →
        sumUpTo movements (interval.lastDay b) = .ok r.fund ∧
          (ExactlySummable (movements.map (·.2)) →
            r.fund.toRat = balanceAt movements (some (interval.lastDay b)))) ∧
      (start < interval.start start ↔ ∃ anchor, interval.anchor? = some anchor ∧
        anchor < start.day ∧ ¬ Granularity.LacksAnchor anchor start) := by
  obtain ⟨hdates, hsums⟩ := everyDay_sums hspans hle h
  have hwalk := interval.walks_bucketsUpTo finish (interval.start start)
  refine ⟨fun r hr => ?_, fun d _ hd => ?_, fun r hr b hb hlast => ⟨?_, fun hexact => ?_⟩,
    Granularity.lt_start_iff⟩
  · have hmem : r.date ∈ (interval.bucketsUpTo finish (interval.start start)).map some :=
      hdates ▸ List.mem_map_of_mem hr
    obtain ⟨b, hb, hdate⟩ := List.mem_map.1 hmem
    exact ⟨b, hdate.symm, hwalk.le_or_eq b hb⟩
  · have hcovers : readings.countP (·.covers interval d) =
        (readings.map (·.date)).countP (Option.any (interval.windowHas d)) := by
      rw [List.countP_map]
      rfl
    rw [hcovers, hdates, List.countP_map, ← hwalk.countP_windowHas hd]
    rfl
  · obtain ⟨other, hother, hsum⟩ := hsums r hr
    cases hb.symm.trans hother
    rwa [limit, earlier_eq_left hlast] at hsum
  · obtain ⟨_, hsummable⟩ := hexact
    obtain ⟨others, hothers, hvalues⟩ := everyDay_values hsummable range interval
    cases h.symm.trans hothers
    have hmem : r.value ∈ readings.map Reading.value := List.mem_map_of_mem hr
    rw [hvalues, windows_of_spans hspans hle] at hmem
    obtain ⟨other, -, hvalue⟩ := List.mem_map.1 hmem
    have hother : some other = r.date := congrArg Prod.fst hvalue
    cases hother.trans hb
    rw [← earlier_eq_left hlast]
    exact (congrArg Prod.snd hvalue).symm

/-- The range begins past the anchor of December, so its first four weeks are in no window; the
    ninth of January and the ninth of February are in one each. -/
theorem everyDay_covers_range_billed :
    ∃ readings, everyDay billed .unconstrained .billingMonth = .ok readings ∧
      readings.countP (·.covers .billingMonth ⟨2023, 12, 31, by decide⟩) = 0 ∧
      readings.countP (·.covers .billingMonth ⟨2024, 1, 9, by decide⟩) = 1 ∧
      readings.countP (·.covers .billingMonth ⟨2024, 2, 9, by decide⟩) = 1 := by
  have hspans : Spans billed .unconstrained ⟨2023, 12, 10, by decide⟩ ⟨2024, 2, 9, by decide⟩ :=
    ⟨.inr ⟨rfl, by decide, by decide⟩, .inr ⟨rfl, by decide, by decide⟩⟩
  have hsum : Decimal.SummableAt 0 (billed.map (·.2)) :=
    .of_scale_le (by decide) (by decide) (by decide +kernel)
  obtain ⟨readings, hreadings, -⟩ := everyDay_values hsum .unconstrained .billingMonth
  obtain ⟨-, hcount, -⟩ := everyDay_covers_range hreadings hspans (by decide)
  exact ⟨readings, hreadings, hcount _ (by decide) (by decide), hcount _ (by decide) (by decide),
    hcount _ (by decide) (by decide)⟩

/-- A range that begins past the anchor of one billing month and ends before the next one: the only
    reading has the date of that next anchor, behind the range, and no day of the range is in its
    window. -/
theorem everyDay_reads_behind_range :
    everyDay [(some ⟨2023, 12, 20, by decide⟩, whole 5)]
        (.between ⟨2023, 12, 10, by decide⟩ ⟨2024, 1, 5, by decide⟩) .billingMonth =
      .ok [⟨some ⟨2024, 1, 9, by decide⟩, whole 5⟩] ∧
    (⟨2024, 1, 5, by decide⟩ : Date) < ⟨2024, 1, 9, by decide⟩ ∧
    ∀ d : Date, d ≤ ⟨2024, 1, 5, by decide⟩ →
      Reading.covers ⟨some ⟨2024, 1, 9, by decide⟩, whole 5⟩ .billingMonth d = false := by
  have hstep : Granularity.billingMonth.step? ⟨2024, 1, 9, by decide⟩ =
      some ⟨2024, 2, 9, by decide⟩ := by decide
  have hbuckets : Granularity.billingMonth.bucketsUpTo ⟨2024, 1, 5, by decide⟩
      ⟨2024, 1, 9, by decide⟩ = [⟨2024, 1, 9, by decide⟩] := by
    rw [Granularity.bucketsUpTo]
    split
    · next next hnext =>
        cases hstep.symm.trans hnext
        exact if_neg (by decide)
    · rfl
  have hstart : Granularity.billingMonth.start ⟨2023, 12, 10, by decide⟩ =
      ⟨2024, 1, 9, by decide⟩ := by decide
  refine ⟨?_, by decide, fun d hd => ?_⟩
  · rw [everyDay, byDate, List.mergeSort_singleton]
    dsimp only [DateRange.between, DateRange.ofBounds, Option.some_or]
    rw [if_neg (by decide), hstart, hbuckets]
    decide
  · have hbefore : ¬ (⟨2024, 1, 9, by decide⟩ : Date) ≤ d :=
      Int.not_le.2 (Int.lt_of_le_of_lt hd (by decide))
    simp [Reading.covers, Granularity.windowHas, hbefore]

end Series

end Bookkeeping
