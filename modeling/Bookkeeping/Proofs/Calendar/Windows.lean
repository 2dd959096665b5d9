import Bookkeeping.Proofs.Calendar.Days
import Bookkeeping.Proofs.Subtotal.ReadingDates

set_option autoImplicit false

/-! # Windows of buckets

The window of a bucket runs from its first day to the day before the next bucket, so windows that
follow one another do not overlap: `lastDay` ends one before the next one starts.

A walk over a range takes one step at a time, as long as the next bucket exists and starts in the
range (`Walks`). Its first window does not end before the range starts: the bucket of a date may
start after it, as in the cycles of billing and financial months, but the bucket after that one
always does. Its last window does not end before the range. -/

namespace Bookkeeping

namespace Granularity

/-- A window reaches up to every day before the next bucket, and to the end of the calendar if
    there is none. -/
theorem le_lastDay_of_lt {g : Granularity} {bucket d : Date}
    (h : ∀ next, g.step? bucket = some next → d < next) : d ≤ g.lastDay bucket := by
  unfold lastDay
  cases hstep : g.step? bucket with
  | none => exact Date.le_last d
  | some next =>
      obtain ⟨p, hp⟩ := Date.exists_prev? (lt_of_step? hstep)
      rw [Option.bind_some, hp]
      exact Date.le_of_lt_of_prev? hp (h next hstep)

/-- A window starts no later than it ends. -/
theorem le_lastDay (g : Granularity) (bucket : Date) : bucket ≤ g.lastDay bucket :=
  le_lastDay_of_lt fun _ hstep => lt_of_step? hstep

/-- A window ends before the next one starts. -/
theorem lastDay_lt_of_step? {g : Granularity} {bucket next : Date}
    (h : g.step? bucket = some next) : g.lastDay bucket < next := by
  obtain ⟨p, hp⟩ := Date.exists_prev? (lt_of_step? h)
  unfold lastDay
  rw [h, Option.bind_some, hp]
  exact Date.lt_of_prev? hp

theorem le_of_mem_bucketsUpTo {g : Granularity} {finish bucket b : Date}
    (h : b ∈ g.bucketsUpTo finish bucket) : bucket ≤ b := by
  rcases mem_bucketsUpTo h with rfl | hlt
  · exact Int.le_refl _
  · exact Int.le_of_lt hlt

/-- Windows that are walked through end one after another. -/
theorem lastDay_ascending (g : Granularity) (finish bucket : Date) :
    (g.bucketsUpTo finish bucket).Pairwise fun a b => g.lastDay a < g.lastDay b := by
  fun_induction bucketsUpTo g finish bucket with
  | case1 bucket next hstep hle ih =>
      refine List.pairwise_cons.2 ⟨?_, ih⟩
      intro b hb
      have hnext : next ≤ g.lastDay b := Int.le_trans (le_of_mem_bucketsUpTo hb) (g.le_lastDay b)
      exact Int.lt_of_lt_of_le (lastDay_lt_of_step? hstep) hnext
  | case2 bucket next hstep hgt => exact List.pairwise_singleton _ _
  | case3 bucket hstep => exact List.pairwise_singleton _ _

/-! ## The first window -/

/-- The anchor after that of a date lies behind the date. -/
theorem lt_of_addMonths?_cycleStart {anchor : Nat} {d next : Date} (hanchor : anchor ≤ 28)
    (h : (cycleStart anchor d).addMonths? 1 = some next) : d < next := by
  unfold cycleStart at h
  split at h
  · exact Date.lt_of_addMonths? (by decide) h
  · next anchored hanchored =>
      obtain ⟨hy, hm, hd⟩ := Date.ofParts?_eq_some hanchored
      split at h
      · exact Date.lt_of_addMonths? (by decide) h
      · split at h
        · cases hforward : anchored.addMonths? 1 with
          | none =>
              rw [hforward] at h
              exact Date.lt_of_addMonths? (by decide) h
          | some b =>
              rw [hforward] at h
              have hafter : b < next := Date.lt_of_addMonths? (by decide) h
              refine Date.lt_trans ?_ hafter
              obtain ⟨hby, hbm, _⟩ := Date.ofParts?_eq_some hforward
              have hbd := b.day_pos
              have hdd := d.day_le
              rw [Date.lt_def]
              simp only [Date.key]
              omega
        · cases hback : anchored.addMonths? (-1) with
          | none =>
              rw [hback] at h
              exact Date.lt_of_addMonths? (by decide) h
          | some b =>
              -- one month back and on again is the anchor in the month of the date itself
              rw [hback] at h
              obtain ⟨hby, hbm, hbd⟩ := Date.ofParts?_eq_some hback
              obtain ⟨hny, hnm, hnd⟩ := Date.ofParts?_eq_some h
              have hmonth : 28 ≤ Date.daysInMonth b.year b.month :=
                Date.le_daysInMonth b.month_pos b.month_le
              have hmonth' : 28 ≤ Date.daysInMonth next.year next.month :=
                Date.le_daysInMonth next.month_pos next.month_le
              have hdm := d.month_pos
              have hdm' := d.month_le
              rw [← hby, ← hbm] at hbd
              rw [Option.getD_some] at hny hnm hnd
              rw [← hny, ← hnm] at hnd
              rw [Date.lt_def]
              simp only [Date.key]
              omega

/-- The bucket after that of a date starts behind the date. -/
theorem lt_of_step?_start {g : Granularity} {d next : Date} (h : g.step? (g.start d) = some next) :
    d < next := by
  cases g with
  | day => exact lt_of_step? h
  | week =>
      have hweek : d.daysAfterMonday ≤ 6 := by
        unfold Date.daysAfterMonday
        omega
      cases hback : d.before? d.daysAfterMonday with
      | none =>
          have hstart : week.start d = d := by rw [start, hback]; rfl
          rw [hstart] at h
          exact lt_of_step? h
      | some b =>
          have hstart : week.start d = b := by rw [start, hback]; rfl
          obtain ⟨rest, hrest⟩ : ∃ rest, 7 = d.daysAfterMonday + (rest + 1) :=
            ⟨6 - d.daysAfterMonday, by omega⟩
          rw [hstart, step?, hrest, Date.later?_add, Date.later?_of_before? hback,
            Option.bind_some] at h
          exact Date.lt_of_later? h
  | month =>
      have hday := d.day_le
      have hnext := next.day_pos
      rw [start, Date.withDay?, Date.ofParts?, dif_pos (isValid_first_of_month d),
        Option.getD_some] at h
      obtain ⟨hy, hm, _⟩ := Date.ofParts?_eq_some h
      dsimp only at hy hm
      rw [Date.lt_def]
      simp only [Date.key]
      omega
  | year =>
      have hday := d.day_le
      have hmonth := d.month_le
      have hnext := next.day_pos
      rw [start, Date.ofParts?, dif_pos (isValid_first_of_year d), Option.getD_some] at h
      obtain ⟨hy, hm, _⟩ := Date.ofParts?_eq_some h
      dsimp only at hy hm
      rw [Date.lt_def]
      simp only [Date.key]
      omega
  | billingMonth => exact lt_of_addMonths?_cycleStart (by decide) h
  | financialMonth => exact lt_of_addMonths?_cycleStart (by decide) h

/-- The window of the bucket of a date does not end before the date. -/
theorem le_lastDay_start (g : Granularity) (d : Date) : d ≤ g.lastDay (g.start d) :=
  le_lastDay_of_lt fun _ hstep => lt_of_step?_start hstep

/-! ## Walks -/

/-- The buckets met on a walk from a bucket, one step at a time, as long as the next one exists and
    starts no later than `finish`. -/
inductive Walks (g : Granularity) (finish : Date) : Date → List Date → Prop where
  | stop {bucket : Date} (hstop : ∀ next, g.step? bucket = some next → finish < next) :
      Walks g finish bucket [bucket]
  | step {bucket next : Date} {rest : List Date} (hstep : g.step? bucket = some next)
      (hle : next ≤ finish) (hrest : Walks g finish next rest) :
      Walks g finish bucket (bucket :: rest)

theorem walks_bucketsUpTo (g : Granularity) (finish bucket : Date) :
    g.Walks finish bucket (g.bucketsUpTo finish bucket) := by
  fun_induction bucketsUpTo g finish bucket with
  | case1 bucket next hstep hle ih => exact .step hstep hle ih
  | case2 bucket next hstep hgt =>
      refine .stop fun other hother => ?_
      rw [hstep] at hother
      cases hother
      exact Int.not_le.1 hgt
  | case3 bucket hstep =>
      refine .stop fun other hother => ?_
      rw [hstep] at hother
      cases hother

namespace Walks

variable {g : Granularity} {finish bucket : Date} {buckets : List Date}

/-- The windows of a walk end no earlier than the first one. -/
theorem lastDay_le (h : g.Walks finish bucket buckets) :
    ∀ b ∈ buckets, g.lastDay bucket ≤ g.lastDay b := by
  induction h with
  | stop _ =>
      intro b hb
      rw [List.mem_singleton.1 hb]
      exact Int.le_refl _
  | @step bucket next rest hstep _ _ ih =>
      intro b hb
      rcases List.mem_cons.1 hb with rfl | hb
      · exact Int.le_refl _
      · have hnext : g.lastDay bucket < g.lastDay next :=
          Int.lt_of_lt_of_le (lastDay_lt_of_step? hstep) (g.le_lastDay next)
        exact Int.le_trans (Int.le_of_lt hnext) (ih b hb)

/-- The last window of a walk reaches up to the end of the range. -/
theorem exists_getLast? (h : g.Walks finish bucket buckets) :
    ∃ b, buckets.getLast? = some b ∧ finish ≤ g.lastDay b := by
  induction h with
  | stop hstop => exact ⟨_, rfl, le_lastDay_of_lt hstop⟩
  | step _ _ _ ih =>
      obtain ⟨b, hb, hle⟩ := ih
      exact ⟨b, by rw [List.getLast?_cons, hb, Option.getD_some], hle⟩

end Walks

end Granularity

end Bookkeeping
