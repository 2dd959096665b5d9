import Bookkeeping.Proofs.Subtotal.ReadingValues

set_option autoImplicit false

/-! # Readings of a range lose no movement

A running balance over a range is read at the end of every window of the walk over it. Each reading
is the balance at that day: what is undated and all that is dated up to the last day of the window,
or up to the end of the range in the last window, be it dated before the range, in it or after its
start. So the last reading holds everything up to the end of the range, and everything there is if
the end was open.

What is dated before the range is part of the opening balance, and hence of every reading. That is
the balance at the end of each window because no window ends before the range starts, not even the
first one of a cycle that starts behind it. -/

namespace Bookkeeping.Series

open Decimal (ExactlySummable)

/-! ## Open ends -/

/-- The first date of movements. -/
def IsFirstDate (movements : List Movement) (d : Date) : Prop :=
  (∃ m ∈ movements, m.1 = some d) ∧ ∀ m ∈ movements, ∀ e ∈ m.1, d ≤ e

/-- The last date of movements. -/
def IsLastDate (movements : List Movement) (d : Date) : Prop :=
  (∃ m ∈ movements, m.1 = some d) ∧ ∀ m ∈ movements, ∀ e ∈ m.1, e ≤ d

/-- The ends of a range, where open ones are closed by the first and the last date of movements. -/
structure Spans (movements : List Movement) (range : DateRange) (start finish : Date) : Prop where
  start : range.first = some start ∨ range.first = none ∧ IsFirstDate movements start
  finish : range.last = some finish ∨ range.last = none ∧ IsLastDate movements finish

theorem mem_dates {movements : List Movement} {d : Date} :
    d ∈ dates movements ↔ ∃ m ∈ movements, m.1 = some d := by
  rw [dates, map_date_dated, List.mem_filterMap]
  simp only [List.mem_map, id_eq, exists_eq_right, (byDate_perm movements).mem_iff]

theorem dates_sorted (movements : List Movement) :
    (dates movements).Pairwise fun a b => a ≤ b :=
  List.pairwise_map.2 (dated_sorted (byDate_pairwise movements))

/-- The first of dates in an order is the one that stands before all of them. -/
theorem head?_eq_some_iff {r : Date → Date → Prop} {l : List Date} (h : l.Pairwise r)
    (hrefl : ∀ d, r d d) (hanti : ∀ a b, r a b → r b a → a = b) (d : Date) :
    l.head? = some d ↔ d ∈ l ∧ ∀ e ∈ l, r d e := by
  cases l with
  | nil => simp
  | cons first rest =>
      have hfirst : ∀ e ∈ first :: rest, r first e := by
        intro e he
        rcases List.mem_cons.1 he with rfl | he
        · exact hrefl e
        · exact (List.pairwise_cons.1 h).1 e he
      rw [List.head?_cons, Option.some.injEq]
      constructor
      · rintro rfl
        exact ⟨List.mem_cons_self, hfirst⟩
      · rintro ⟨hmem, hle⟩
        exact hanti _ _ (hfirst d hmem) (hle first List.mem_cons_self)

theorem forall_mem_dates {movements : List Movement} {p : Date → Prop} :
    (∀ d ∈ dates movements, p d) ↔ ∀ m ∈ movements, ∀ d ∈ m.1, p d := by
  constructor
  · exact fun h m hm d hd => h d (mem_dates.2 ⟨m, hm, hd⟩)
  · intro h d hd
    obtain ⟨m, hm, hdate⟩ := mem_dates.1 hd
    exact h m hm d hdate

theorem date_le_antisymm {a b : Date} (hab : a ≤ b) (hba : b ≤ a) : a = b :=
  Date.key_injective (Int.le_antisymm hab hba)

theorem head?_dates_iff {movements : List Movement} {d : Date} :
    (dates movements).head? = some d ↔ IsFirstDate movements d := by
  rw [head?_eq_some_iff (dates_sorted movements) (fun d => Int.le_refl d.key)
    (fun _ _ => date_le_antisymm), mem_dates, forall_mem_dates, IsFirstDate]

theorem getLast?_dates_iff {movements : List Movement} {d : Date} :
    (dates movements).getLast? = some d ↔ IsLastDate movements d := by
  have hsorted := List.pairwise_reverse.2 (dates_sorted movements)
  rw [List.getLast?_eq_head?_reverse, head?_eq_some_iff hsorted (fun d => Int.le_refl d.key)
    (fun _ _ hba hab => date_le_antisymm hab hba), List.mem_reverse, mem_dates, IsLastDate,
    ← forall_mem_dates]
  simp only [List.mem_reverse]

/-- Ends of a range that are closed are those that the windows are read between. -/
theorem spans_iff {movements : List Movement} {range : DateRange} {start finish : Date} :
    Spans movements range start finish ↔
      range.first.or (dates movements).head? = some start ∧
        range.last.or (dates movements).getLast? = some finish := by
  rw [Option.or_eq_some_iff, Option.or_eq_some_iff, head?_dates_iff, getLast?_dates_iff]
  exact ⟨fun h => ⟨h.start, h.finish⟩, fun h => ⟨h.1, h.2⟩⟩

/-! ## Balances at the end of windows -/

/-- A window that does not end before the range starts takes in all that is up to its last day. -/
theorem inWindow_eq_notAfter {start last : Date} (h : start ≤ last) :
    inWindow start last = fun m => notAfter m.1 (some last) := by
  funext m
  obtain ⟨date, amount⟩ := m
  cases date with
  | none => rfl
  | some d =>
      have hbefore : d < start → d ≤ last :=
        fun hlt => Int.le_trans (Int.le_of_lt hlt) h
      simpa [inWindow, notAfter] using hbefore

/-- Where a window does not end before the range starts, its balance is that of its last day. -/
theorem windowBalance_eq_balanceAt {start last : Date} (h : start ≤ last)
    (movements : List Movement) :
    windowBalance movements start last = balanceAt movements (some last) := by
  rw [windowBalance, inWindow_eq_notAfter h, balanceAt]

/-- At the last date everything is in the balance. -/
theorem balanceAt_lastDate {movements : List Movement} {d : Date} (h : IsLastDate movements d) :
    balanceAt movements (some d) = (movements.map (·.2.toRat)).sum := by
  refine valueWhere_all fun m hm => ?_
  obtain ⟨date, amount⟩ := m
  cases date with
  | none => rfl
  | some e => exact decide_eq_true (h.2 _ hm e rfl)

theorem le_earlier {d a b : Date} (ha : d ≤ a) (hb : d ≤ b) : d ≤ Date.earlier a b := by
  unfold Date.earlier
  split
  · exact ha
  · exact hb

theorem earlier_le_left (a b : Date) : Date.earlier a b ≤ a := by
  unfold Date.earlier
  split
  · exact Int.le_refl _
  · next h => exact Int.le_of_lt (Int.not_le.1 h)

/-- The last date takes nothing away from the balance of a day. -/
theorem balanceAt_earlier_lastDate {movements : List Movement} {finish : Date}
    (h : IsLastDate movements finish) (d : Date) :
    balanceAt movements (some (Date.earlier d finish)) = balanceAt movements (some d) := by
  unfold balanceAt valueWhere
  congr 2
  refine List.filter_congr fun m hm => ?_
  obtain ⟨date, amount⟩ := m
  cases date with
  | none => rfl
  | some e =>
      have hle : e ≤ finish := h.2 _ hm e rfl
      rw [Bool.eq_iff_iff]
      constructor
      · intro hearlier
        exact decide_eq_true (Int.le_trans (of_decide_eq_true hearlier) (earlier_le_left d finish))
      · intro hday
        exact decide_eq_true (le_earlier (of_decide_eq_true hday) hle)

theorem earlier_eq_left {a b : Date} (h : a ≤ b) : Date.earlier a b = a := if_pos h

theorem earlier_eq_right {a b : Date} (h : b ≤ a) : Date.earlier a b = b := by
  unfold Date.earlier
  split
  · next hle => exact date_le_antisymm hle h
  · rfl

/-- The windows between two days are those of the walk from the bucket of the first one, each with
    the balance at its last day. -/
theorem windows_of_spans {movements : List Movement} {range : DateRange} {start finish : Date}
    (hspans : Spans movements range start finish) (hle : start ≤ finish)
    (interval : Granularity) :
    windows movements range interval =
      (interval.bucketsUpTo finish (interval.start start)).map fun b =>
        (some b, balanceAt movements (some (Date.earlier (interval.lastDay b) finish))) := by
  obtain ⟨hstart, hfinish⟩ := spans_iff.1 hspans
  have hordered : ¬ finish < start := Int.not_lt.2 hle
  have hwalk := interval.walks_bucketsUpTo finish (interval.start start)
  rw [windows, hstart, hfinish]
  dsimp only
  rw [if_neg hordered]
  refine List.map_congr_left fun b hb => ?_
  have hlast : start ≤ interval.lastDay b :=
    Int.le_trans (interval.le_lastDay_start start) (hwalk.lastDay_le b hb)
  rw [limit, windowBalance_eq_balanceAt (le_earlier hlast hle)]

/-- There is nothing to read where no two days span the range. -/
theorem windows_eq_nil {movements : List Movement} {range : DateRange}
    (h : ∀ start finish, Spans movements range start finish → finish < start)
    (interval : Granularity) : windows movements range interval = [] := by
  unfold windows
  split
  · next start finish hstart hfinish =>
      exact if_pos (h start finish (spans_iff.2 ⟨hstart, hfinish⟩))
  · rfl

/-! ## Readings -/

/-- A running balance over a range of movements that add up exactly can always be read. It is empty
    where no two days span the range in their order. Else it is read at the buckets of the walk
    over the range, which follow one another, and each reading is the balance at the last day of
    its window in the range. So the last one is the balance at the end of the range, and the sum of
    all movements where the end was open. -/
theorem everyDay_reads_windows {movements : List Movement}
    (h : ExactlySummable (movements.map (·.2))) (range : DateRange) (interval : Granularity) :
    ∃ readings, everyDay movements range interval = .ok readings ∧
      ((∀ start finish, Spans movements range start finish → finish < start) → readings = []) ∧
      ∀ start finish, Spans movements range start finish → start ≤ finish →
        (∃ buckets, interval.Walks finish (interval.start start) buckets ∧
          buckets.Pairwise (· < ·) ∧
          readings.map Reading.value = buckets.map fun b =>
            (some b, balanceAt movements (some (Date.earlier (interval.lastDay b) finish)))) ∧
        ∃ last, readings.getLast? = some last ∧
          last.fund.toRat = balanceAt movements (some finish) ∧
          (range.last = none → last.fund.toRat = (movements.map (·.2.toRat)).sum) := by
  obtain ⟨s, hsum⟩ := h
  obtain ⟨readings, hreadings, hvalues⟩ := everyDay_values hsum range interval
  refine ⟨readings, hreadings, fun hnone => ?_, fun start finish hspans hle => ⟨?_, ?_⟩⟩
  · rw [windows_eq_nil hnone] at hvalues
    exact List.map_eq_nil_iff.1 hvalues
  · exact ⟨_, interval.walks_bucketsUpTo finish _, interval.bucketsUpTo_ascending finish _,
      hvalues.trans (windows_of_spans hspans hle interval)⟩
  · obtain ⟨b, hb, hend⟩ :=
      (interval.walks_bucketsUpTo finish (interval.start start)).exists_getLast?
    have hgetLast := congrArg List.getLast? hvalues
    rw [windows_of_spans hspans hle, List.getLast?_map, List.getLast?_map, hb, Option.map_some,
      earlier_eq_right hend, Option.map_eq_some_iff] at hgetLast
    obtain ⟨last, hlast, hvalue⟩ := hgetLast
    have hfund : last.fund.toRat = balanceAt movements (some finish) := congrArg Prod.snd hvalue
    refine ⟨last, hlast, hfund, fun hopen => ?_⟩
    rcases hspans.finish with hclosed | ⟨_, hfinish⟩
    · rw [hopen] at hclosed
      cases hclosed
    · rw [hfund, balanceAt_lastDate hfinish]

/-- A whole amount. -/
def whole (n : Int) : Decimal := (Decimal.ofParts? n 0).getD .zero

/-- Four movements around the anchors of two billing months. -/
def billed : List Movement :=
  [(Date.ofParts? 2024 2 9, whole 1000), (Date.ofParts? 2023 12 10, whole 1),
    (Date.ofParts? 2024 2 8, whole 100), (Date.ofParts? 2024 1 9, whole 10)]

/-- The range is open, so it starts on the day of the second movement, which is in the group of the
    first anchor and is read with the first window. -/
theorem everyDay_reads_windows_billed :
    ExactlySummable (billed.map (·.2)) ∧
      Spans billed .unconstrained ⟨2023, 12, 10, by decide⟩ ⟨2024, 2, 9, by decide⟩ ∧
      ∃ readings, everyDay billed .unconstrained .billingMonth = .ok readings ∧
        ∃ last, readings.getLast? = some last ∧ last.fund.toRat = 1111 := by
  have hspans : Spans billed .unconstrained ⟨2023, 12, 10, by decide⟩ ⟨2024, 2, 9, by decide⟩ :=
    ⟨.inr ⟨rfl, by decide, by decide⟩, .inr ⟨rfl, by decide, by decide⟩⟩
  have hsum : ExactlySummable (billed.map (·.2)) :=
    ⟨0, .of_scale_le (by decide) (by decide) (by decide +kernel)⟩
  obtain ⟨readings, hreadings, -, hread⟩ := everyDay_reads_windows hsum .unconstrained .billingMonth
  obtain ⟨-, last, hlast, -, hall⟩ := hread _ _ hspans (by decide)
  refine ⟨hsum, hspans, readings, hreadings, last, hlast, ?_⟩
  rw [hall rfl]
  decide +kernel

end Bookkeeping.Series
