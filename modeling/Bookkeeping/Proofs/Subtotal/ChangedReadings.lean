import Bookkeeping.Proofs.Subtotal.WindowReadings

set_option autoImplicit false

/-! # Readings of changed days leave no drift

A day is read if its balance is more than the tolerance away from the last balance that was read.
The comparison is with that reading and not with the day before, so changes that are small day by
day cannot add up unseen: at every date of a movement the last reading up to there is within the
tolerance of the balance, `near_lastRead`. That is the invariant of the walk over the days, with
the last reading before the walk taking part where none of the days so far was read. -/

namespace Bookkeeping.Series

open Decimal (ExactlySummable)

/-! ## The order of dates -/

theorem lt_iff_notAfter {a b : Option Date} : a < b ↔ notAfter b a = false := by
  cases a <;> cases b <;> simp [notAfter, Date.lt_def, Date.le_def]

theorem notAfter_of_lt {a b : Option Date} (h : a < b) : notAfter a b = true := by
  have htotal := notAfter_total a b
  rwa [lt_iff_notAfter.1 h, Bool.or_false] at htotal

theorem mem_days {movements : List Movement} {date : Option Date} :
    date ∈ days movements ↔ ∃ m ∈ movements, m.1 = date := by
  simp [days, (byDate_perm movements).mem_iff]

theorem days_ascending (movements : List Movement) : (days movements).Pairwise (· < ·) := by
  have hsorted : (days movements).Pairwise fun a b => notAfter a b = true :=
    (List.pairwise_map.2 (byDate_pairwise movements)).sublist (List.dedup_sublist _)
  refine (hsorted.and (List.nodup_dedup _)).imp ?_
  rintro a b ⟨hle, hne⟩
  rw [lt_iff_notAfter, ← Bool.not_eq_true]
  intro hback
  exact hne (eq_of_notAfter hle hback)

/-! ## The days that are read -/

section

variable {balance : Option Date → ℚ} {last : Option ℚ} {dates : List (Option Date)}

theorem changedDays_dates_sublist :
    ((changedDays balance last dates).map Prod.fst).Sublist dates := by
  induction dates generalizing last with
  | nil => exact .slnil
  | cons date rest ih =>
      rw [changedDays]
      split
      · exact ih.cons date
      · exact ih.cons_cons date

/-- Balances that are read one after another differ by more than the tolerance. -/
theorem changedDays_moved :
    (last.toList ++ (changedDays balance last dates).map Prod.snd).IsChain
      fun v w => 1 / 10 ^ 6 < |v - w| := by
  induction dates generalizing last with
  | nil => cases last <;> simp [changedDays]
  | cons date rest ih =>
      rw [changedDays]
      split
      · exact ih
      · next hmoved =>
          have hrest := @ih (some (balance date))
          cases last with
          | none => exact hrest
          | some v =>
              have hstep : 1 / 10 ^ 6 < |v - balance date| := by simpa using hmoved
              exact .cons_cons hstep hrest

/-- The last balance that was read up to a date, or else the one read before all of them. -/
def lastRead (last : Option ℚ) (read : List (Option Date × ℚ)) (date : Option Date) : Option ℚ :=
  ((read.filter fun r => notAfter r.1 date).getLast?.map Prod.snd).or last

/-- From a balance that was read no later than a date, only those read after it still count. -/
theorem lastRead_cons {r : Option Date × ℚ} {date : Option Date} (h : notAfter r.1 date = true)
    (last : Option ℚ) (read : List (Option Date × ℚ)) :
    lastRead last (r :: read) date = lastRead (some r.2) read date := by
  rw [lastRead, lastRead, List.filter_cons, if_pos h, List.getLast?_cons]
  cases (read.filter fun r => notAfter r.1 date).getLast? <;> rfl

/-- At each of the days, the last balance that was read is within the tolerance. -/
theorem near_lastRead (hdates : dates.Pairwise (· < ·)) :
    ∀ date ∈ dates, ∃ v, lastRead last (changedDays balance last dates) date = some v ∧
      |v - balance date| ≤ 1 / 10 ^ 6 := by
  induction dates generalizing last with
  | nil => simp
  | cons first rest ih =>
      rcases List.pairwise_cons.1 hdates with ⟨hfirst, hrest⟩
      -- nothing that is read later on counts for the first day
      have hlater (from? : Option ℚ) :
          (changedDays balance from? rest).filter (fun r => notAfter r.1 first) = [] := by
        refine List.filter_eq_nil_iff.2 ?_
        intro r hr
        have hmem := changedDays_dates_sublist.subset (List.mem_map_of_mem (f := Prod.fst) hr)
        simp [lt_iff_notAfter.1 (hfirst r.1 hmem)]
      intro date hdate
      rw [changedDays]
      split
      · next hnear =>
          rcases List.mem_cons.1 hdate with rfl | hdate
          · rcases (Option.any_eq_true _ _).1 hnear with ⟨v, hv, hle⟩
            exact ⟨v, by simpa [lastRead, hlater] using hv, of_decide_eq_true hle⟩
          · exact ih hrest date hdate
      · rcases List.mem_cons.1 hdate with rfl | hdate
        · exact ⟨balance date, by simp [lastRead, hlater, notAfter_refl], by simp⟩
        · obtain ⟨v, hv, hle⟩ := @ih (some (balance first)) hrest date hdate
          refine ⟨v, ?_, hle⟩
          rw [← hv]
          exact lastRead_cons (notAfter_of_lt (hfirst date hdate)) last _

end

/-! ## Readings -/

/-- The last reading that does not come after a date. -/
def lastUpTo? (readings : List Reading) (date : Option Date) : Option Reading :=
  (readings.filter fun r => notAfter r.date date).getLast?

/-- Readings that tell the balance of movements wherever it has changed, and nothing else. -/
structure TellsChanges (movements : List Movement) (readings : List Reading) : Prop where
  ascending : readings.Pairwise fun a b => a.date < b.date
  /-- Every reading is the balance at the end of a date on which something moved. -/
  balance_eq : ∀ r ∈ readings,
    (∃ m ∈ movements, m.1 = r.date) ∧ r.fund.toRat = balanceAt movements r.date
  /-- The earliest date is read, whatever the balance is. -/
  first : movements ≠ [] →
    ∃ r, readings.head? = some r ∧ ∀ m ∈ movements, notAfter r.date m.1 = true
  moved : readings.IsChain fun a b => 1 / 10 ^ 6 < |a.fund.toRat - b.fund.toRat|
  /-- Small changes never add up to one that is not read. -/
  near : ∀ m ∈ movements, ∃ r, lastUpTo? readings m.1 = some r ∧
    |r.fund.toRat - balanceAt movements m.1| ≤ 1 / 10 ^ 6
  near_total : movements ≠ [] → ∃ r, readings.getLast? = some r ∧
    |r.fund.toRat - (movements.map (·.2.toRat)).sum| ≤ 1 / 10 ^ 6

section

variable {movements : List Movement} {readings : List Reading}

theorem days_ne_nil (h : movements ≠ []) : days movements ≠ [] := by
  obtain ⟨m, hm⟩ := List.exists_mem_of_ne_nil _ h
  exact List.ne_nil_of_mem (mem_days.2 ⟨m, hm, rfl⟩)

theorem notAfter_first {first : Option Date} {rest : List (Option Date)}
    (hdays : days movements = first :: rest) {m : Movement} (hm : m ∈ movements) :
    notAfter first m.1 = true := by
  have hmem : m.1 ∈ days movements := mem_days.2 ⟨m, hm, rfl⟩
  have hsorted := days_ascending movements
  rw [hdays] at hmem hsorted
  rcases List.mem_cons.1 hmem with heq | hlater
  · rw [heq]
    exact notAfter_refl _
  · exact notAfter_of_lt ((List.pairwise_cons.1 hsorted).1 _ hlater)

theorem exists_latest (h : movements ≠ []) :
    ∃ m ∈ movements, ∀ other ∈ movements, notAfter other.1 m.1 = true := by
  have hne := days_ne_nil h
  obtain ⟨m, hm, hdate⟩ := mem_days.1 (List.getLast_mem hne)
  refine ⟨m, hm, ?_⟩
  intro other hother
  rw [hdate]
  have hmem : other.1 ∈ days movements := mem_days.2 ⟨other, hother, rfl⟩
  rw [← List.dropLast_append_getLast hne, List.mem_append, List.mem_singleton] at hmem
  have hsorted := days_ascending movements
  rw [← List.dropLast_append_getLast hne, List.pairwise_append] at hsorted
  rcases hmem with hbefore | hlast
  · exact notAfter_of_lt (hsorted.2.2 _ hbefore _ (List.mem_singleton_self _))
  · rw [hlast]
    exact notAfter_refl _

theorem lastRead_map_value (readings : List Reading) (date : Option Date) :
    lastRead none (readings.map Reading.value) date =
      (lastUpTo? readings date).map (·.fund.toRat) := by
  rw [lastRead, lastUpTo?, List.filter_map, List.getLast?_map, Option.map_map, Option.or_none]
  rfl

/-- What the values of readings tell, the readings tell. -/
theorem tellsChanges_of_values
    (h : readings.map Reading.value = changedDays (balanceAt movements) none (days movements)) :
    TellsChanges movements readings := by
  have hdates : (readings.map (·.date)).Sublist (days movements) := by
    have hread : ((changedDays (balanceAt movements) none (days movements)).map Prod.fst).Sublist
        (days movements) := changedDays_dates_sublist
    rwa [← h, List.map_map] at hread
  have hbalance : ∀ r ∈ readings, r.fund.toRat = balanceAt movements r.date := by
    intro r hr
    have hmem := List.mem_map_of_mem (f := Reading.value) hr
    rw [h] at hmem
    exact changedDays_balance _ hmem
  have hday : ∀ r ∈ readings, ∃ m ∈ movements, m.1 = r.date :=
    fun r hr => mem_days.1 (hdates.subset (List.mem_map_of_mem hr))
  have hnear : ∀ m ∈ movements, ∃ r, lastUpTo? readings m.1 = some r ∧
      |r.fund.toRat - balanceAt movements m.1| ≤ 1 / 10 ^ 6 := by
    intro m hm
    obtain ⟨v, hv, hle⟩ : ∃ v,
        lastRead none (changedDays (balanceAt movements) none (days movements)) m.1 = some v ∧
          |v - balanceAt movements m.1| ≤ 1 / 10 ^ 6 :=
      near_lastRead (days_ascending movements) m.1 (mem_days.2 ⟨m, hm, rfl⟩)
    rw [← h, lastRead_map_value, Option.map_eq_some_iff] at hv
    obtain ⟨r, hr, rfl⟩ := hv
    exact ⟨r, hr, hle⟩
  refine ⟨?_, fun r hr => ⟨hday r hr, hbalance r hr⟩, ?_, ?_, hnear, ?_⟩
  · exact List.pairwise_map.1 ((days_ascending movements).sublist hdates)
  · intro hne
    -- the first day is read because there is no reading before it
    cases hdays : days movements with
    | nil => exact absurd hdays (days_ne_nil hne)
    | cons first rest =>
        rw [hdays, changedDays, Option.any_none, if_neg (by decide), List.map_eq_cons_iff] at h
        obtain ⟨r, others, rfl, hvalue, -⟩ := h
        have hfirst : r.date = first := congrArg Prod.fst hvalue
        refine ⟨r, rfl, ?_⟩
        intro m hm
        rw [hfirst]
        exact notAfter_first hdays hm
  · have hmoved : (Option.toList none ++
        (changedDays (balanceAt movements) none (days movements)).map Prod.snd).IsChain
          fun v w => 1 / 10 ^ 6 < |v - w| := changedDays_moved
    rw [← h, List.map_map, Option.toList_none, List.nil_append, List.isChain_map] at hmoved
    exact hmoved
  · intro hne
    obtain ⟨m, hm, hlatest⟩ := exists_latest hne
    obtain ⟨r, hr, hle⟩ := hnear m hm
    have hall : readings.filter (fun r => notAfter r.date m.1) = readings := by
      refine List.filter_eq_self.2 ?_
      intro r hr
      obtain ⟨other, hother, hdate⟩ := hday r hr
      rw [← hdate]
      exact hlatest other hother
    rw [lastUpTo?, hall] at hr
    rw [balanceAt, valueWhere_all hlatest] at hle
    exact ⟨r, hr, hle⟩

end

/-- The changed days of movements that add up exactly can always be read, in whatever order the
    movements come, and the readings tell the balance up to the tolerance: at every date the last
    reading is no further away from it than that, and at the end it is that close to the sum of
    all movements. -/
theorem changedDay_tells_changes {movements : List Movement}
    (h : ExactlySummable (movements.map (·.2))) :
    ∃ readings, changedDay movements = .ok readings ∧ TellsChanges movements readings := by
  obtain ⟨s, hsum⟩ := h
  obtain ⟨readings, hreadings, hvalues⟩ := changedDay_values hsum
  exact ⟨readings, hreadings, tellsChanges_of_values hvalues⟩

/-- Ten undated, and three days with less than a millionth each. -/
def drops : List Movement :=
  let drop := (Decimal.ofParts? 8 7).getD .zero
  [(Date.ofParts? 2024 1 3, drop), (none, whole 10), (Date.ofParts? 2024 1 2, drop),
    (Date.ofParts? 2024 1 1, drop)]

/-- Each drop is too small to be read by itself, and still none of them is lost. -/
theorem changedDay_tells_changes_drops :
    ExactlySummable (drops.map (·.2)) ∧
      ∃ readings, changedDay drops = .ok readings ∧ TellsChanges drops readings ∧
        ∃ r, readings.getLast? = some r ∧ |r.fund.toRat - (10 + 24 / 10 ^ 7)| ≤ 1 / 10 ^ 6 := by
  have hsum : ExactlySummable (drops.map (·.2)) :=
    ⟨7, .of_scale_le (by decide) (by decide) (by decide +kernel)⟩
  obtain ⟨readings, hreadings, htells⟩ := changedDay_tells_changes hsum
  obtain ⟨r, hr, hle⟩ := htells.near_total (by decide)
  have htotal : (drops.map (·.2.toRat)).sum = 10 + 24 / 10 ^ 7 := by decide +kernel
  rw [htotal] at hle
  exact ⟨hsum, readings, hreadings, htells, r, hr, hle⟩

end Bookkeeping.Series
