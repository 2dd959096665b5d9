import Bookkeeping.Proofs.Failure
import Bookkeeping.Subtotal.Grouping

set_option autoImplicit false

/-! # Running balances succeed

A running balance reads a sum of movements taken by date, from the first one on. In that order the
movements before a day come first, so what is read at the start of a range and what is added
later are the front and the back of one list. Running balances therefore succeed as soon as the
sums of the movements by date exist. -/

namespace Bookkeeping.Series

open Decimal (Adds checkedSumFrom)

/-! ## Order by date -/

theorem notAfter_total (a b : Option Date) : (notAfter a b || notAfter b a) = true := by
  cases a with
  | none => rfl
  | some a =>
      cases b with
      | none => rfl
      | some b =>
          simp only [notAfter, Bool.or_eq_true, decide_eq_true_eq, Date.le_def]
          omega

theorem notAfter_refl (a : Option Date) : notAfter a a = true := by
  simpa using notAfter_total a a

theorem notAfter_trans {a b c : Option Date} (hab : notAfter a b = true)
    (hbc : notAfter b c = true) : notAfter a c = true := by
  cases a with
  | none => rfl
  | some a =>
      cases b with
      | none => cases hab
      | some b =>
          cases c with
          | none => cases hbc
          | some c =>
              simp only [notAfter, decide_eq_true_eq, Date.le_def] at hab hbc ⊢
              omega

theorem byDate_perm (movements : List Movement) : (byDate movements).Perm movements :=
  List.mergeSort_perm _ _

theorem byDate_pairwise (movements : List Movement) :
    (byDate movements).Pairwise fun a b => notAfter a.1 b.1 = true :=
  @List.pairwise_mergeSort _ (fun a b => notAfter a.1 b.1) (fun _ _ _ => notAfter_trans)
    (fun a b => notAfter_total a.1 b.1) movements

/-- In a list in which a property holds up to some place only, filtering stops there. -/
theorem filter_eq_takeWhile {α : Type} {p : α → Bool} {l : List α}
    (h : l.Pairwise fun a b => p b = true → p a = true) : l.filter p = l.takeWhile p := by
  induction l with
  | nil => rfl
  | cons a rest ih =>
      rw [List.pairwise_cons] at h
      cases ha : p a with
      | true => rw [List.filter_cons_of_pos ha, List.takeWhile_cons_of_pos ha, ih h.2]
      | false =>
          have hnone : rest.filter p = [] := by
            refine List.filter_eq_nil_iff.2 fun b hb hpb => ?_
            rw [h.1 b hb hpb] at ha
            cases ha
          rw [List.filter_cons_of_neg (by simp [ha]), List.takeWhile_cons_of_neg (by simp [ha]),
            hnone]

/-- Whether a movement is part of the opening balance of a range. -/
def isOpening (start : Date) (m : Movement) : Bool := m.1.all (· < start)

theorem isOpening_of_notAfter {start : Date} {a b : Movement} (h : notAfter a.1 b.1 = true)
    (hb : isOpening start b = true) : isOpening start a = true := by
  obtain ⟨da, x⟩ := a
  obtain ⟨db, y⟩ := b
  cases da with
  | none => rfl
  | some da =>
      cases db with
      | none => cases h
      | some db =>
          simp only [notAfter, isOpening, Option.all_some, decide_eq_true_eq, Date.le_def,
            Date.lt_def] at h hb ⊢
          omega

/-- The opening movements stand in front of all others. -/
theorem opening_eq_takeWhile (start : Date) (movements : List Movement) :
    (byDate movements).filter (isOpening start) =
      (byDate movements).takeWhile (isOpening start) :=
  filter_eq_takeWhile ((byDate_pairwise movements).imp fun h => isOpening_of_notAfter h)

/-- What is dated from the start on comes from behind the opening movements. -/
theorem dated_dropWhile (start : Date) (movements : List Movement) :
    (dated movements).dropWhile (fun m => m.1 < start) =
      dated (movements.dropWhile (isOpening start)) := by
  unfold dated
  rw [List.dropWhile_filterMap]
  congr 1
  refine congrArg (fun p => List.dropWhile p movements) (funext fun m => ?_)
  obtain ⟨date, amount⟩ := m
  cases date <;> rfl

theorem amounts_dated_sublist (movements : List Movement) :
    ((dated movements).map (·.2)).Sublist (movements.map (·.2)) := by
  induction movements with
  | nil => exact .slnil
  | cons m rest ih =>
      obtain ⟨date, amount⟩ := m
      cases date with
      | none => exact ih.cons amount
      | some date => exact ih.cons_cons amount

/-! ## Readings exist -/

theorem changesFrom_ok {movements : List Movement} {balance total : Decimal}
    {last : Option Decimal} (h : checkedSumFrom balance (movements.map (·.2)) = .ok total) :
    ∃ readings, changesFrom balance last movements = .ok readings := by
  induction movements generalizing balance last with
  | nil => exact ⟨[], rfl⟩
  | cons m rest ih =>
      obtain ⟨date, amount⟩ := m
      rw [List.map_cons, checkedSumFrom, List.foldlM_cons] at h
      obtain ⟨sum, hsum, hrest⟩ := bind_eq_ok.1 h
      rw [changesFrom, hsum, ok_bind]
      split
      · exact ih hrest
      · obtain ⟨readings, hreadings⟩ :
            ∃ readings, changesFrom sum (some sum) rest = .ok readings := ih hrest
        exact ⟨_, bind_eq_ok.2 ⟨readings, hreadings, rfl⟩⟩

/-- Where the movements cannot be added up, there are no readings, for the same reason. -/
theorem changesFrom_error {movements : List Movement} {balance : Decimal} {last : Option Decimal}
    {e : Failure} (h : checkedSumFrom balance (movements.map (·.2)) = .error e) :
    changesFrom balance last movements = .error e := by
  induction movements generalizing balance last with
  | nil => cases h
  | cons m rest ih =>
      obtain ⟨date, amount⟩ := m
      rw [List.map_cons, checkedSumFrom, List.foldlM_cons] at h
      rw [changesFrom]
      refine bind_eq_error.2 ((bind_eq_error.1 h).imp id ?_)
      rintro ⟨sum, hsum, hrest⟩
      refine ⟨sum, hsum, ?_⟩
      split
      · exact ih hrest
      · exact bind_eq_error.2 (.inl (ih hrest))

theorem readBuckets_ok {g : Granularity} {finish : Date} {buckets : List Date}
    {balance total : Decimal} {pending : List (Date × Decimal)}
    (h : checkedSumFrom balance (pending.map (·.2)) = .ok total) :
    ∃ readings, readBuckets g finish balance pending buckets = .ok readings := by
  induction buckets generalizing balance pending with
  | nil => exact ⟨[], rfl⟩
  | cons bucket rest ih =>
      rw [readBuckets]
      generalize Date.earlier (g.lastDay bucket) finish = last
      rw [← List.takeWhile_append_dropWhile (p := fun m => decide (m.1 ≤ last)) (l := pending),
        List.map_append] at h
      obtain ⟨sum, hsum, hrest⟩ := Decimal.checkedSumFrom_front h
      obtain ⟨readings, hreadings⟩ := ih hrest
      exact ⟨_, bind_eq_ok.2 ⟨sum, hsum, bind_eq_ok.2 ⟨readings, hreadings, rfl⟩⟩⟩

theorem changedDay_ok {movements : List Movement}
    (h : Adds ((byDate movements).map (·.2))) :
    ∃ readings, changedDay movements = .ok readings := by
  obtain ⟨total, htotal⟩ := h _ (List.Sublist.refl _)
  exact changesFrom_ok htotal

theorem everyDay_ok {movements : List Movement} (h : Adds ((byDate movements).map (·.2)))
    (range : DateRange) (interval : Granularity) :
    ∃ readings, everyDay movements range interval = .ok readings := by
  unfold everyDay
  dsimp only
  split
  · next start finish _ _ =>
      split
      · exact ⟨[], rfl⟩
      · -- the opening balance and the readings add up the front of the list and part of its back
        have hsub : (((byDate movements).filter (isOpening start)).map (·.2) ++
            ((dated (byDate movements)).dropWhile fun m => m.1 < start).map (·.2)).Sublist
            ((byDate movements).map (·.2)) := by
          rw [opening_eq_takeWhile, dated_dropWhile]
          conv => rhs; rw [← List.takeWhile_append_dropWhile (p := isOpening start)
            (l := byDate movements), List.map_append]
          exact (List.Sublist.refl _).append (amounts_dated_sublist _)
        obtain ⟨total, htotal⟩ := h _ hsub
        obtain ⟨balance, hbalance, hrest⟩ := Decimal.checkedSumFrom_front htotal
        obtain ⟨readings, hreadings⟩ := readBuckets_ok hrest
        exact ⟨readings, bind_eq_ok.2 ⟨balance, hbalance, hreadings⟩⟩
  · exact ⟨[], rfl⟩

end Bookkeeping.Series

namespace Bookkeeping.Subtotal

/-- A running balance can be read where the sums of its movements by date exist. -/
theorem Group.readings_ok {movements : List Movement}
    (h : Decimal.Adds ((Series.byDate movements).map (·.2))) (mode : SeriesMode) :
    ∃ readings, Group.readings mode movements = .ok readings := by
  cases mode with
  | none => exact ⟨[], rfl⟩
  | changedDay => exact Series.changedDay_ok h
  | everyDay range interval => exact Series.everyDay_ok h range interval

end Bookkeeping.Subtotal
