import Bookkeeping.Proofs.Calendar.Windows
import Bookkeeping.Proofs.Decimal.Rounding

set_option autoImplicit false

/-! # What a running balance reads

The readings of movements that add up exactly, said on values alone. A reading of changed days is
the balance at the end of its day, `balanceAt`, and a reading of a range that at the end of its
window, `windowBalance`. Both are sums over the movements that satisfy a test, so they do not
depend on the order in which the movements come; neither do the days that are read. -/

namespace Bookkeeping

/-- The date of a reading and the value that stands there. -/
def Reading.value (r : Reading) : Option Date × ℚ := (r.date, r.fund.toRat)

namespace Series

open Decimal (SummableAt)

/-! ## Balances -/

/-- What the movements that satisfy a test come to. -/
def valueWhere (p : Movement → Bool) (movements : List Movement) : ℚ :=
  ((movements.filter p).map (·.2.toRat)).sum

/-- The balance at the end of a date. What is undated comes before all dates. -/
def balanceAt (movements : List Movement) (date : Option Date) : ℚ :=
  valueWhere (fun m => notAfter m.1 date) movements

/-- Whether a movement is in the balance at the last day of a window of a range: undated ones and
    those before the range are part of its opening balance. -/
def inWindow (start last : Date) (m : Movement) : Bool :=
  m.1.all fun d => d < start || d ≤ last

/-- The balance at the last day of a window of a range. -/
def windowBalance (movements : List Movement) (start last : Date) : ℚ :=
  valueWhere (inWindow start last) movements

theorem valueWhere_perm {movements others : List Movement} (h : movements.Perm others)
    (p : Movement → Bool) : valueWhere p movements = valueWhere p others :=
  ((h.filter p).map _).sum_eq

theorem valueWhere_all {p : Movement → Bool} {movements : List Movement}
    (h : ∀ m ∈ movements, p m = true) :
    valueWhere p movements = (movements.map (·.2.toRat)).sum := by
  rw [valueWhere, List.filter_eq_self.2 h]

/-! ## The days of movements -/

/-- The days of movements, each once, from the first on. -/
def days (movements : List Movement) : List (Option Date) :=
  ((byDate movements).map (·.1)).dedup

/-- The dates of movements, from the first on. -/
def dates (movements : List Movement) : List Date :=
  (dated (byDate movements)).map (·.1)

theorem map_date_byDate_perm {movements others : List Movement} (h : movements.Perm others) :
    (byDate movements).map (·.1) = (byDate others).map (·.1) := by
  have hsorted (l : List Movement) :
      ((byDate l).map (·.1)).Pairwise fun a b => notAfter a b = true :=
    List.pairwise_map.2 (byDate_pairwise l)
  have hperm : (byDate movements).Perm (byDate others) :=
    (byDate_perm movements).trans (h.trans (byDate_perm others).symm)
  exact (hperm.map _).eq_of_pairwise (fun _ _ _ _ => eq_of_notAfter) (hsorted _) (hsorted _)

theorem map_date_dated (movements : List Movement) :
    (dated movements).map (·.1) = (movements.map (·.1)).filterMap id := by
  rw [dated, List.map_filterMap, List.filterMap_map]
  congr 1
  funext m
  obtain ⟨date, amount⟩ := m
  cases date <;> rfl

theorem days_perm {movements others : List Movement} (h : movements.Perm others) :
    days movements = days others := by
  rw [days, map_date_byDate_perm h, days]

theorem dates_perm {movements others : List Movement} (h : movements.Perm others) :
    dates movements = dates others := by
  rw [dates, map_date_dated, map_date_byDate_perm h, ← map_date_dated, dates]

/-! ## Changed days -/

/-- The days whose balance is not near the last one that was read, and that balance. -/
def changedDays (balance : Option Date → ℚ) (last : Option ℚ) :
    List (Option Date) → List (Option Date × ℚ)
  | [] => []
  | date :: rest =>
      if last.any fun v => |v - balance date| ≤ 1 / 10 ^ 6 then changedDays balance last rest
      else (date, balance date) :: changedDays balance (some (balance date)) rest

theorem changedDays_balance {balance : Option Date → ℚ} {last : Option ℚ}
    {dates : List (Option Date)} : ∀ r ∈ changedDays balance last dates, r.2 = balance r.1 := by
  induction dates generalizing last with
  | nil => simp [changedDays]
  | cons date rest ih =>
      intro r hr
      rw [changedDays] at hr
      split at hr
      · exact ih r hr
      · rcases List.mem_cons.1 hr with rfl | hr
        · rfl
        · exact ih r hr

/-- The balance at the end of a date as it is added up, which may round. -/
def addedUp (movements : List Movement) (date : Option Date) : Except Failure Decimal :=
  Decimal.checkedSum ((movements.filter fun m => notAfter m.1 date).map (·.2))

/-- In the order of dates, what does not come after a date is what stands up to the last movement
    of that date. -/
theorem filter_notAfter_last {front rest : List Movement} {m : Movement}
    (hsorted : (front ++ m :: rest).Pairwise fun a b => notAfter a.1 b.1 = true)
    (hlast : m.1 ∉ rest.map (·.1)) :
    (front ++ m :: rest).filter (fun a => notAfter a.1 m.1) = front ++ [m] := by
  obtain ⟨_, hback, hbefore⟩ := List.pairwise_append.1 hsorted
  have hfront : ∀ a ∈ front, notAfter a.1 m.1 = true :=
    fun a ha => hbefore a ha m List.mem_cons_self
  have hrest : ∀ a ∈ rest, ¬ notAfter a.1 m.1 = true := by
    intro a ha hle
    have heq : m.1 = a.1 := eq_of_notAfter ((List.pairwise_cons.1 hback).1 a ha) hle
    exact hlast (heq ▸ List.mem_map_of_mem ha)
  rw [List.filter_append, List.filter_eq_self.2 hfront, List.filter_cons,
    if_pos (notAfter_refl m.1), List.filter_eq_nil_iff.2 hrest]

/-- Where the sum of all movements exists, so does the balance at the end of every date. -/
theorem addedUp_ok {movements : List Movement} {total : Decimal}
    (hsorted : movements.Pairwise fun a b => notAfter a.1 b.1 = true)
    (h : Decimal.checkedSum (movements.map (·.2)) = .ok total) (date : Option Date) :
    ∃ balance, addedUp movements date = .ok balance := by
  have hfirst : movements.filter (fun m => notAfter m.1 date) =
      movements.takeWhile (fun m => notAfter m.1 date) :=
    filter_eq_takeWhile (hsorted.imp fun hab hb => notAfter_trans hab hb)
  rw [← List.takeWhile_append_dropWhile (p := fun m => notAfter m.1 date) (l := movements),
    List.map_append] at h
  obtain ⟨balance, hbalance, -⟩ := Decimal.checkedSumFrom_front h
  exact ⟨balance, by rw [addedUp, hfirst]; exact hbalance⟩

/-- A walk from a balance on reads the balances at the end of the days that have changed by
    value. -/
theorem changesFrom_eq {ends : Option Date → Decimal} {front movements : List Movement}
    {balance total : Decimal} {last : Option Decimal}
    (hsorted : (front ++ movements).Pairwise fun a b => notAfter a.1 b.1 = true)
    (hends : ∀ date, addedUp (front ++ movements) date = .ok (ends date))
    (hbalance : Decimal.checkedSum (front.map (·.2)) = .ok balance)
    (htotal : Decimal.checkedSumFrom balance (movements.map (·.2)) = .ok total) :
    changesFrom balance last movements = .ok ((changedDays (fun d => (ends d).toRat)
      (last.map (·.toRat)) (movements.map (·.1)).dedup).map fun e => ⟨e.1, ends e.1⟩) := by
  induction movements generalizing front balance last with
  | nil => rfl
  | cons m rest ih =>
      obtain ⟨date, amount⟩ := m
      rw [List.map_cons, Decimal.checkedSumFrom, List.foldlM_cons] at htotal
      obtain ⟨sum, hsum, hrest⟩ := bind_eq_ok.1 htotal
      have hfront : Decimal.checkedSum ((front ++ [(date, amount)]).map (·.2)) = .ok sum := by
        rw [List.map_append, List.map_singleton, Decimal.checkedSum_append_singleton, hbalance]
        exact hsum
      have ih (last : Option Decimal) : changesFrom sum last rest =
          .ok ((changedDays (fun d => (ends d).toRat) (last.map (·.toRat))
            (rest.map (·.1)).dedup).map fun e => ⟨e.1, ends e.1⟩) := by
        rw [List.append_cons] at hsorted hends
        exact ih hsorted hends hfront hrest
      obtain ⟨hfirst, hlater⟩ := List.pairwise_cons.1 (List.pairwise_append.1 hsorted).2.1
      have hbehind := head_date_iff hfirst hlater
      rw [changesFrom, hsum, ok_bind, List.map_cons]
      by_cases hagain : date ∈ rest.map (·.1)
      · rw [hbehind.2 hagain, Bool.true_or, if_pos rfl, List.dedup_cons_of_mem hagain]
        exact ih last
      · have hhead : rest.head?.any (·.1 = date) = false := by
          rw [← Bool.not_eq_true, hbehind]
          exact hagain
        -- nothing of the date is left, so this is the balance at its end
        have hread : sum = ends date := by
          have hend := hends date
          rw [addedUp, filter_notAfter_last hsorted hagain, hfront] at hend
          exact Except.ok.inj hend
        have hnear : last.any (·.near sum) =
            (last.map (·.toRat)).any fun v => |v - (ends date).toRat| ≤ 1 / 10 ^ 6 := by
          cases last with
          | none => rfl
          | some v =>
              rw [Bool.eq_iff_iff]
              simp [Decimal.near_iff, hread]
        rw [hhead, Bool.false_or, List.dedup_cons_of_notMem hagain, changedDays, hnear]
        split
        · exact ih last
        · rw [ih (some sum), ok_bind, hread]
          rfl

/-- Where the sum of all movements exists, the changed days are read, and they are those on which
    the values of the balances have changed. -/
theorem changedDay_eq {movements : List Movement} {total : Decimal}
    (h : Decimal.checkedSum ((byDate movements).map (·.2)) = .ok total) :
    ∃ ends : Option Date → Decimal, (∀ date, addedUp (byDate movements) date = .ok (ends date)) ∧
      changedDay movements = .ok ((changedDays (fun d => (ends d).toRat) none
        (days movements)).map fun e => ⟨e.1, ends e.1⟩) := by
  choose ends hends using addedUp_ok (byDate_pairwise movements) h
  have hsorted : (([] : List Movement) ++ byDate movements).Pairwise
      fun a b => notAfter a.1 b.1 = true :=
    byDate_pairwise movements
  exact ⟨ends, hends, changesFrom_eq hsorted hends rfl h⟩

theorem changedDay_values {s : Nat} {movements : List Movement}
    (h : SummableAt s (movements.map (·.2))) :
    ∃ readings, changedDay movements = .ok readings ∧
      readings.map Reading.value = changedDays (balanceAt movements) none (days movements) := by
  have hsum : Decimal.ExactlySummable ((byDate movements).map (·.2)) :=
    ⟨s, h.perm ((byDate_perm movements).map _)⟩
  obtain ⟨total, htotal, -⟩ := hsum.checkedSum
  obtain ⟨ends, hends, hreadings⟩ := changedDay_eq htotal
  have hvalue : (fun date => (ends date).toRat) = balanceAt movements := by
    funext date
    have hpart : ((byDate movements).filter fun m => notAfter m.1 date).Sublist
        (byDate movements) := List.filter_sublist
    obtain ⟨balance, hbalance, hexact⟩ := (hsum.subperm (hpart.map _).subperm).checkedSum
    have hend := hends date
    rw [addedUp, hbalance, Except.ok.injEq] at hend
    rw [← hend, hexact, List.map_map]
    exact valueWhere_perm (byDate_perm movements) _
  refine ⟨_, hreadings, ?_⟩
  have hread : ∀ e ∈ changedDays (fun d => (ends d).toRat) none (days movements),
      (e.1, (ends e.1).toRat) = e := fun e he => Prod.ext rfl (changedDays_balance e he).symm
  rw [List.map_map, ← hvalue]
  exact (List.map_congr_left hread).trans (List.map_id _)

/-! ## Windows of a range -/

/-- The last day of a window that is part of a range. -/
def limit (g : Granularity) (finish bucket : Date) : Date :=
  Date.earlier (g.lastDay bucket) finish

/-- The windows of a range and the balance at the end of each. -/
def windows (movements : List Movement) (range : DateRange) (interval : Granularity) :
    List (Option Date × ℚ) :=
  match range.first.or (dates movements).head?, range.last.or (dates movements).getLast? with
  | some start, some finish =>
      if finish < start then []
      else (interval.bucketsUpTo finish (interval.start start)).map fun bucket =>
        (some bucket, windowBalance movements start (limit interval finish bucket))
  | _, _ => []

theorem earlier_mono {a b : Date} (h : a ≤ b) (finish : Date) :
    Date.earlier a finish ≤ Date.earlier b finish := by
  simp only [Date.earlier, Date.le_def] at h ⊢
  split <;> split <;> omega

theorem limits_ascending (g : Granularity) (finish bucket : Date) :
    (g.bucketsUpTo finish bucket).Pairwise fun a b => limit g finish a ≤ limit g finish b :=
  (g.lastDay_ascending finish bucket).imp fun h => earlier_mono (Int.le_of_lt h) finish

/-- Up to a day there are those that are past it already, and the first ones of those to come. -/
theorem filter_upTo {passed pending : List (Date × Decimal)} {last : Date}
    (hsorted : pending.Pairwise fun a b => a.1 ≤ b.1) (hpassed : ∀ m ∈ passed, m.1 ≤ last) :
    (passed ++ pending).filter (·.1 ≤ last) = passed ++ pending.takeWhile (·.1 ≤ last) := by
  have hstops : pending.filter (·.1 ≤ last) = pending.takeWhile (·.1 ≤ last) := by
    refine filter_eq_takeWhile (hsorted.imp fun hab hb => ?_)
    rw [decide_eq_true_iff] at hb ⊢
    exact Int.le_trans hab hb
  rw [List.filter_append, hstops, List.filter_eq_self.2]
  exact fun m hm => decide_eq_true (hpassed m hm)

theorem readBuckets_values {s : Nat} {g : Granularity} {finish : Date} {opening : ℚ}
    {passed pending : List (Date × Decimal)} {buckets : List Date} {balance : Decimal}
    (hsorted : pending.Pairwise fun a b => a.1 ≤ b.1)
    (hlimits : buckets.Pairwise fun a b => limit g finish a ≤ limit g finish b)
    (hpassed : ∀ m ∈ passed, ∀ b ∈ buckets, m.1 ≤ limit g finish b)
    (hbalance : balance.toRat = opening + (passed.map (·.2.toRat)).sum)
    (hsum : SummableAt s (balance :: pending.map (·.2))) :
    ∃ readings, readBuckets g finish balance pending buckets = .ok readings ∧
      readings.map Reading.value = buckets.map fun b => (some b, opening +
        (((passed ++ pending).filter (·.1 ≤ limit g finish b)).map (·.2.toRat)).sum) := by
  induction buckets generalizing passed pending balance with
  | nil => exact ⟨[], rfl, rfl⟩
  | cons bucket rest ih =>
      obtain ⟨hlater, hlimits⟩ := List.pairwise_cons.1 hlimits
      have hnow := filter_upTo hsorted fun m hm => hpassed m hm bucket List.mem_cons_self
      generalize hp : (fun m : Date × Decimal => decide (m.1 ≤ limit g finish bucket)) = p at hnow
      have hsplit : (passed ++ pending.takeWhile p) ++ pending.dropWhile p = passed ++ pending := by
        rw [List.append_assoc, List.takeWhile_append_dropWhile]
      rw [← List.takeWhile_append_dropWhile (p := p) (l := pending), List.map_append] at hsum
      obtain ⟨sum, hadd, hvalue, hsum⟩ := hsum.checkedSumFrom_front
      have hread : sum.toRat =
          opening + ((passed ++ pending.takeWhile p).map (·.2.toRat)).sum := by
        rw [hvalue, hbalance, List.map_append, List.sum_append, List.map_map, add_assoc]
        rfl
      have hthrough : ∀ m ∈ passed ++ pending.takeWhile p, ∀ b ∈ rest,
          m.1 ≤ limit g finish b := by
        intro m hm b hb
        rw [← hnow, List.mem_filter, ← hp, decide_eq_true_iff] at hm
        exact Int.le_trans hm.2 (hlater b hb)
      obtain ⟨readings, hreadings, hvalues⟩ := ih (hsorted.sublist (List.dropWhile_sublist p))
        hlimits hthrough hread hsum
      have hlimit : Date.earlier (g.lastDay bucket) finish = limit g finish bucket := rfl
      rw [readBuckets]
      dsimp only
      rw [hlimit, hp, hadd, ok_bind, hreadings, ok_bind, List.map_cons, hp, hnow, ← hread]
      refine ⟨_, rfl, ?_⟩
      rw [List.map_cons, hvalues, hsplit]
      rfl

theorem dated_sorted {movements : List Movement}
    (h : movements.Pairwise fun a b => notAfter a.1 b.1 = true) :
    (dated movements).Pairwise fun a b => a.1 ≤ b.1 := by
  refine List.pairwise_filterMap.2 (h.imp ?_)
  rintro ⟨a, x⟩ ⟨b, y⟩ hle m hm other hother
  cases a with
  | none => cases hm
  | some a =>
      cases b with
      | none => cases hother
      | some b =>
          cases hm
          cases hother
          exact of_decide_eq_true hle

/-- Behind the place up to which a property holds it does not hold any more. -/
theorem eq_false_of_mem_dropWhile {α : Type} {p : α → Bool} {l : List α}
    (h : l.Pairwise fun a b => p b = true → p a = true) : ∀ a ∈ l.dropWhile p, p a = false := by
  induction l with
  | nil => simp
  | cons a rest ih =>
      obtain ⟨hfirst, hrest⟩ := List.pairwise_cons.1 h
      cases ha : p a with
      | true =>
          rw [List.dropWhile_cons_of_pos ha]
          exact ih hrest
      | false =>
          rw [List.dropWhile_cons_of_neg (by simp [ha])]
          intro b hb
          rcases List.mem_cons.1 hb with rfl | hb
          · exact ha
          · rw [← Bool.not_eq_true]
            intro hpb
            rw [hfirst b hb hpb] at ha
            cases ha

/-- Where nothing is before the range any more, a window takes in what is dated up to its end. -/
theorem amounts_inWindow_dated {start last : Date} {movements : List Movement}
    (h : ∀ m ∈ movements, isOpening start m = false) :
    (movements.filter (inWindow start last)).map (·.2) =
      ((dated movements).filter (·.1 ≤ last)).map (·.2) := by
  induction movements with
  | nil => rfl
  | cons m rest ih =>
      obtain ⟨date, amount⟩ := m
      have hm := h _ List.mem_cons_self
      have ih := ih fun a ha => h a (List.mem_cons_of_mem _ ha)
      cases date with
      | none => cases hm
      | some d =>
          have hin : inWindow start last (some d, amount) = decide (d ≤ last) := by
            have hlt : decide (d < start) = false := hm
            simp [inWindow, hlt]
          unfold dated at ih ⊢
          simp only [List.filterMap_cons, Option.map_some, List.filter_cons, hin]
          split
          · rw [List.map_cons, ih, List.map_cons]
          · exact ih

/-- In the order of dates, a window takes in what is before the range and then what is dated in the
    range up to the end of the window. -/
theorem amounts_inWindow (movements : List Movement) (start last : Date) :
    ((byDate movements).filter (inWindow start last)).map (·.2) =
      ((byDate movements).takeWhile (isOpening start)).map (·.2) ++
        ((dated ((byDate movements).dropWhile (isOpening start))).filter (·.1 ≤ last)).map
          (·.2) := by
  have hstops : (byDate movements).Pairwise
      fun a b => isOpening start b = true → isOpening start a = true :=
    (byDate_pairwise movements).imp fun h => isOpening_of_notAfter h
  have hfront : ∀ m ∈ (byDate movements).takeWhile (isOpening start),
      inWindow start last m = true := by
    intro m hm
    have hopening : isOpening start m = true := List.mem_takeWhile_imp hm
    obtain ⟨date, amount⟩ := m
    cases date with
    | none => rfl
    | some d =>
        have hlt : decide (d < start) = true := hopening
        simp [inWindow, hlt]
  conv => lhs; rw [← List.takeWhile_append_dropWhile (p := isOpening start)
    (l := byDate movements)]
  rw [List.filter_append, List.filter_eq_self.2 hfront, List.map_append,
    amounts_inWindow_dated (eq_false_of_mem_dropWhile hstops)]

/-- The balance of a window is made up of the opening balance and of what is dated in the range
    up to the end of the window. -/
theorem windowBalance_eq (movements : List Movement) (start last : Date) :
    windowBalance movements start last =
      (((byDate movements).takeWhile (isOpening start)).map (·.2.toRat)).sum +
        (((dated ((byDate movements).dropWhile (isOpening start))).filter (·.1 ≤ last)).map
          (·.2.toRat)).sum := by
  have hvalues := congrArg (fun amounts => (amounts.map Decimal.toRat).sum)
    (amounts_inWindow movements start last)
  simp only [List.map_append, List.map_map, List.sum_append] at hvalues
  exact (valueWhere_perm (byDate_perm movements).symm _).trans hvalues

theorem everyDay_values {s : Nat} {movements : List Movement}
    (h : SummableAt s (movements.map (·.2))) (range : DateRange) (interval : Granularity) :
    ∃ readings, everyDay movements range interval = .ok readings ∧
      readings.map Reading.value = windows movements range interval := by
  unfold everyDay windows dates
  rw [List.head?_map, List.getLast?_map]
  dsimp only
  generalize range.first.or ((dated (byDate movements)).head?.map (·.1)) = first?
  generalize range.last.or ((dated (byDate movements)).getLast?.map (·.1)) = last?
  cases first? with
  | none => exact ⟨[], rfl, rfl⟩
  | some start =>
      cases last? with
      | none => exact ⟨[], rfl, rfl⟩
      | some finish =>
          dsimp only
          by_cases hrange : finish < start
          · rw [if_pos hrange, if_pos hrange]
            exact ⟨[], rfl, rfl⟩
          · rw [if_neg hrange, if_neg hrange]
            have hsum := (h.perm ((byDate_perm movements).map _)).zero_cons
            rw [← List.takeWhile_append_dropWhile (p := isOpening start) (l := byDate movements),
              List.map_append] at hsum
            obtain ⟨opening, hopening, hvalue, hsum⟩ := hsum.checkedSumFrom_front
            rw [Decimal.toRat_zero, zero_add, List.map_map] at hvalue
            have hpending : SummableAt s (opening ::
                (dated ((byDate movements).dropWhile (isOpening start))).map (·.2)) :=
              hsum.sublist ((amounts_dated_sublist _).cons_cons opening)
            have hsorted := dated_sorted
              ((byDate_pairwise movements).sublist (List.dropWhile_sublist (isOpening start)))
            have hopened : opening.toRat =
                (((byDate movements).takeWhile (isOpening start)).map (·.2.toRat)).sum +
                  (([] : List (Date × Decimal)).map (·.2.toRat)).sum := by
              rw [hvalue, List.map_nil, List.sum_nil, add_zero]
              rfl
            obtain ⟨readings, hreadings, hvalues⟩ := readBuckets_values hsorted
              (limits_ascending interval finish (interval.start start)) (by simp) hopened hpending
            refine ⟨readings, ?_, ?_⟩
            · have htest : (fun m : Movement => m.1.all (· < start)) = isOpening start := rfl
              rw [htest, opening_eq_takeWhile, dated_dropWhile]
              exact bind_eq_ok.2 ⟨opening, hopening, hreadings⟩
            · rw [hvalues]
              refine List.map_congr_left fun bucket _ => ?_
              rw [windowBalance_eq, List.nil_append]

end Series

/-! ## Either kind of readings -/

namespace Subtotal.Group

open Decimal (SummableAt)

/-- The readings of movements as dates and values. -/
def readingValues (mode : SeriesMode) (movements : List Movement) : List (Option Date × ℚ) :=
  match mode with
  | .none => []
  | .changedDay => Series.changedDays (Series.balanceAt movements) none (Series.days movements)
  | .everyDay range interval => Series.windows movements range interval

/-- A running balance of movements that add up exactly reads their values. -/
theorem readings_values {s : Nat} {movements : List Movement}
    (h : SummableAt s (movements.map (·.2))) (mode : SeriesMode) :
    ∃ found, readings mode movements = .ok found ∧
      found.map Reading.value = readingValues mode movements := by
  cases mode with
  | none => exact ⟨[], rfl, rfl⟩
  | changedDay => exact Series.changedDay_values h
  | everyDay range interval => exact Series.everyDay_values h range interval

/-- The values read do not depend on the order of the movements. -/
theorem readingValues_perm {movements others : List Movement} (h : movements.Perm others)
    (mode : SeriesMode) : readingValues mode movements = readingValues mode others := by
  have hbalance : Series.balanceAt movements = Series.balanceAt others :=
    funext fun date => Series.valueWhere_perm h _
  have hwindow : Series.windowBalance movements = Series.windowBalance others :=
    funext fun start => funext fun last => Series.valueWhere_perm h _
  cases mode with
  | none => rfl
  | changedDay => rw [readingValues, readingValues, hbalance, Series.days_perm h]
  | everyDay range interval =>
      rw [readingValues, readingValues, Series.windows, Series.windows, Series.dates_perm h,
        hwindow]

end Subtotal.Group

end Bookkeeping
