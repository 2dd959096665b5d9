import Bookkeeping.Proofs.Calendar.Labels
import Bookkeeping.Proofs.Subtotal.Balances

set_option autoImplicit false

/-! # The dates of a running balance

No two readings of a running balance have the same date. The balance of changed days is read at
the last movement of a date only, and movements are read by date; the buckets of a range follow
one another. All of these dates are days on which a bucket of the readings can start, so the
readings have different labels as well. -/

namespace Bookkeeping

/-! ## Buckets of a range -/

namespace Granularity

theorem mem_bucketsUpTo {g : Granularity} {finish bucket b : Date}
    (h : b ∈ g.bucketsUpTo finish bucket) : b = bucket ∨ bucket < b := by
  fun_induction bucketsUpTo g finish bucket with
  | case1 bucket next hstep hle ih =>
      rcases List.mem_cons.1 h with rfl | h
      · exact .inl rfl
      · rcases ih h with rfl | hlt
        · exact .inr (lt_of_step? hstep)
        · exact .inr (Date.lt_trans (lt_of_step? hstep) hlt)
  | case2 bucket next hstep hgt => exact .inl (List.mem_singleton.1 h)
  | case3 bucket hstep => exact .inl (List.mem_singleton.1 h)

/-- Buckets follow one another. -/
theorem bucketsUpTo_ascending (g : Granularity) (finish bucket : Date) :
    (g.bucketsUpTo finish bucket).Pairwise (· < ·) := by
  fun_induction bucketsUpTo g finish bucket with
  | case1 bucket next hstep hle ih =>
      refine List.pairwise_cons.2 ⟨?_, ih⟩
      intro b hb
      rcases mem_bucketsUpTo hb with rfl | hlt
      · exact lt_of_step? hstep
      · exact Date.lt_trans (lt_of_step? hstep) hlt
  | case2 bucket next hstep hgt => exact List.pairwise_singleton _ _
  | case3 bucket hstep => exact List.pairwise_singleton _ _

theorem isStart_of_mem_bucketsUpTo {g : Granularity} {finish bucket : Date}
    (hbucket : g.IsStart bucket) : ∀ b ∈ g.bucketsUpTo finish bucket, g.IsStart b := by
  fun_induction bucketsUpTo g finish bucket with
  | case1 bucket next hstep hle ih =>
      intro b hb
      rcases List.mem_cons.1 hb with rfl | hb
      · exact hbucket
      · exact ih (isStart_step? hbucket hstep) b hb
  | case2 bucket next hstep hgt =>
      intro b hb
      rw [List.mem_singleton.1 hb]
      exact hbucket
  | case3 bucket hstep =>
      intro b hb
      rw [List.mem_singleton.1 hb]
      exact hbucket

end Granularity

/-! ## Dates of readings -/

namespace Series

theorem eq_of_notAfter {a b : Option Date} (hab : notAfter a b = true)
    (hba : notAfter b a = true) : a = b := by
  cases a with
  | none =>
      cases b with
      | none => rfl
      | some b => cases hba
  | some a =>
      cases b with
      | none => cases hab
      | some b =>
          simp only [notAfter, decide_eq_true_eq, Date.le_def] at hab hba
          exact congrArg some (Date.key_injective (Int.le_antisymm hab hba))

/-- In the order of their dates, movements of one date follow one another: if the date comes up
    again at all, it does so at once. -/
theorem head_date_iff {date : Option Date} {rest : List Movement}
    (hfirst : ∀ m ∈ rest, notAfter date m.1 = true)
    (hsorted : rest.Pairwise fun a b => notAfter a.1 b.1 = true) :
    rest.head?.any (·.1 = date) = true ↔ date ∈ rest.map (·.1) := by
  constructor
  · intro hhead
    obtain ⟨next, hnext, hdate⟩ := (Option.any_eq_true _ _).1 hhead
    exact List.mem_map.2 ⟨next, List.mem_of_head? hnext, of_decide_eq_true hdate⟩
  · intro hmem
    obtain ⟨other, hother, rfl⟩ := List.mem_map.1 hmem
    cases rest with
    | nil => cases hother
    | cons next others =>
        have hle : notAfter next.1 other.1 = true := by
          rcases List.mem_cons.1 hother with rfl | hother
          · exact hfirst other List.mem_cons_self
          · exact (List.pairwise_cons.1 hsorted).1 other hother
        exact decide_eq_true (eq_of_notAfter hle (hfirst next List.mem_cons_self))

/-- A date is read once, at the last of its movements. -/
theorem changesFrom_dates {movements : List Movement} {balance : Decimal} {last : Option Decimal}
    {readings : List Reading}
    (hsorted : movements.Pairwise fun a b => notAfter a.1 b.1 = true)
    (h : changesFrom balance last movements = .ok readings) :
    (readings.map (·.date)).Nodup ∧ ∀ r ∈ readings, ∃ m ∈ movements, m.1 = r.date := by
  induction movements generalizing balance last readings with
  | nil =>
      cases h
      exact ⟨List.nodup_nil, by simp⟩
  | cons m rest ih =>
      obtain ⟨date, amount⟩ := m
      obtain ⟨hfirst, hrest⟩ := List.pairwise_cons.1 hsorted
      rw [changesFrom] at h
      obtain ⟨sum, _, hread⟩ := bind_eq_ok.1 h
      split at hread
      · obtain ⟨hnodup, hmem⟩ := ih hrest hread
        refine ⟨hnodup, fun r hr => ?_⟩
        obtain ⟨other, hother, hdate⟩ := hmem r hr
        exact ⟨other, List.mem_cons_of_mem _ hother, hdate⟩
      · next hlast =>
          obtain ⟨more, hmore, hreadings⟩ := bind_eq_ok.1 hread
          cases hreadings
          obtain ⟨hnodup, hmem⟩ := ih hrest hmore
          have hlater : date ∉ rest.map (·.1) := by
            rw [← head_date_iff hfirst hrest]
            intro hagain
            exact hlast (by rw [hagain, Bool.true_or])
          refine ⟨List.nodup_cons.2 ⟨?_, hnodup⟩, ?_⟩
          · intro hdate
            obtain ⟨r, hr, hsame⟩ := List.mem_map.1 hdate
            obtain ⟨other, hother, hotherDate⟩ := hmem r hr
            exact hlater (List.mem_map.2 ⟨other, hother, hotherDate.trans hsame⟩)
          · intro r hr
            rcases List.mem_cons.1 hr with rfl | hr
            · exact ⟨_, List.mem_cons_self, rfl⟩
            · obtain ⟨other, hother, hdate⟩ := hmem r hr
              exact ⟨other, List.mem_cons_of_mem _ hother, hdate⟩

/-- Every bucket is read once. -/
theorem readBuckets_dates {g : Granularity} {finish : Date} {buckets : List Date}
    {balance : Decimal} {pending : List (Date × Decimal)} {readings : List Reading}
    (h : readBuckets g finish balance pending buckets = .ok readings) :
    readings.map (·.date) = buckets.map some := by
  induction buckets generalizing balance pending readings with
  | nil =>
      cases h
      rfl
  | cons bucket rest ih =>
      rw [readBuckets] at h
      obtain ⟨sum, _, hread⟩ := bind_eq_ok.1 h
      obtain ⟨more, hmore, hreadings⟩ := bind_eq_ok.1 hread
      cases hreadings
      rw [List.map_cons, List.map_cons, ih hmore]

theorem everyDay_dates {movements : List Movement} {range : DateRange} {interval : Granularity}
    {readings : List Reading} (h : everyDay movements range interval = .ok readings) :
    readings = [] ∨ ∃ start finish, readings.map (·.date) =
      (interval.bucketsUpTo finish (interval.start start)).map some := by
  unfold everyDay at h
  dsimp only at h
  split at h
  · next start finish _ _ =>
      split at h
      · cases h
        exact .inl rfl
      · obtain ⟨balance, _, hread⟩ := bind_eq_ok.1 h
        exact .inr ⟨start, finish, readBuckets_dates hread⟩
  · cases h
    exact .inl rfl

end Series

/-! ## Labels of readings -/

namespace Subtotal

theorem Group.readings_dates {mode : SeriesMode} {g : Granularity} (hmode : mode.interval? = some g)
    {movements : List Movement} {readings : List Reading}
    (h : Group.readings mode movements = .ok readings) :
    (readings.map (·.date)).Nodup ∧ ∀ r ∈ readings, ∀ d ∈ r.date, g.IsStart d := by
  cases mode with
  | none => cases hmode
  | changedDay =>
      cases hmode
      exact ⟨(Series.changesFrom_dates (Series.byDate_pairwise movements) h).1,
        fun _ _ _ _ => trivial⟩
  | everyDay range _ =>
      cases hmode
      rcases Series.everyDay_dates h with rfl | ⟨start, finish, hdates⟩
      · exact ⟨List.nodup_nil, by simp⟩
      · refine ⟨?_, ?_⟩
        · rw [hdates, List.Nodup, List.pairwise_map]
          refine (g.bucketsUpTo_ascending finish _).imp fun hlt heq => ?_
          exact absurd (Option.some.inj heq ▸ hlt) (Int.lt_irrefl _)
        · intro r hr d hd
          have hmem : some d ∈ (g.bucketsUpTo finish (g.start start)).map some := by
            rw [← hdates]
            exact List.mem_map.2 ⟨r, hr, hd⟩
          obtain ⟨b, hb, hbd⟩ := List.mem_map.1 hmem
          cases hbd
          exact Granularity.isStart_of_mem_bucketsUpTo (g.isStart_start start) d hb

/-- The readings of a running balance have different labels. -/
theorem Group.nodup_reading_labels {mode : SeriesMode} {g : Granularity}
    (hmode : mode.interval? = some g) {movements : List Movement} {readings : List Reading}
    (h : Group.readings mode movements = .ok readings) :
    (readings.map fun r => g.label r.date).Nodup := by
  obtain ⟨hnodup, hstart⟩ := Group.readings_dates hmode h
  rw [List.Nodup, List.pairwise_map] at hnodup ⊢
  refine hnodup.imp_of_mem fun ha hb hne heq => ?_
  exact hne (Granularity.label_injective (hstart _ ha) (hstart _ hb) heq)

end Subtotal

end Bookkeeping
