import Bookkeeping.Proofs.Failure
import Bookkeeping.Subtotal.Grouping
import Bookkeeping.Subtotal.Walk

set_option autoImplicit false

/-! # What a subtotal can fail with

A subtotal fails for two reasons only: a rate is missing, or an amount leaves the range. Running
balances know only the second one. A walk fails with what its steps fail with. -/

namespace Bookkeeping

/-- The failures of amounts: a missing rate, or an amount out of range. -/
inductive Failure.IsOfAmounts : Failure → Prop where
  | missingRate (currency target : String) (date : Option Date) :
      IsOfAmounts (.missingRate currency target date)
  | overflow : IsOfAmounts .overflow

theorem Failure.isOfAmounts_of_eq_overflow {e : Failure} (h : e = .overflow) : e.IsOfAmounts :=
  h ▸ .overflow

/-! ## Running balances -/

namespace Series

theorem onlyFails_changesFrom (movements : List Movement) (balance : Decimal)
    (last : Option Decimal) :
    OnlyFails (· = .overflow) (changesFrom balance last movements) := by
  induction movements generalizing balance last with
  | nil => exact .ok []
  | cons m rest ih =>
      obtain ⟨date, amount⟩ := m
      rw [changesFrom]
      refine (Decimal.onlyFails_checkedAdd balance amount).bind fun balance => ?_
      exact .ite (ih balance last) ((ih balance (some balance)).bind fun rs => .ok _)

theorem onlyFails_readBuckets (g : Granularity) (finish : Date) (buckets : List Date)
    (balance : Decimal) (pending : List (Date × Decimal)) :
    OnlyFails (· = .overflow) (readBuckets g finish balance pending buckets) := by
  induction buckets generalizing balance pending with
  | nil => exact .ok []
  | cons bucket rest ih =>
      rw [readBuckets]
      exact (Decimal.onlyFails_checkedSumFrom _ _).bind fun balance =>
        (ih balance _).bind fun rs => .ok _

theorem onlyFails_everyDay (movements : List Movement) (range : DateRange)
    (interval : Granularity) : OnlyFails (· = .overflow) (everyDay movements range interval) := by
  unfold everyDay
  dsimp only
  split
  · exact .ite (.ok []) ((Decimal.onlyFails_checkedSumFrom _ _).bind fun balance =>
      onlyFails_readBuckets interval _ _ balance _)
  · exact .ok []

end Series

/-! ## Grouping -/

namespace Subtotal

namespace Group

theorem onlyFails_take (movement : Movement) (voucher : Option Nat) (g : Group) :
    OnlyFails (· = .overflow) (g.take movement voucher) := by
  unfold take
  exact .ite (.ok _) ((Decimal.onlyFails_checkedAdd _ _).bind fun fund => .ok _)

theorem onlyFails_enter (movement : Movement) (voucher : Option Nat) (keys : List Key)
    (g : Group) : OnlyFails (· = .overflow) (g.enter movement voucher keys) := by
  induction keys generalizing g with
  | nil => exact onlyFails_take movement voucher g
  | cons key rest ih =>
      rw [enter]
      refine (ih _).bind fun result => ?_
      obtain ⟨child, taken⟩ := result
      exact .ite ((Decimal.onlyFails_checkedAdd _ _).bind fun fund => .ok _) (.ok _)

theorem onlyFails_readings (mode : SeriesMode) (movements : List Movement) :
    OnlyFails (· = .overflow) (readings mode movements) := by
  cases mode with
  | none => exact .ok []
  | changedDay => exact Series.onlyFails_changesFrom _ _ _
  | everyDay range interval => exact Series.onlyFails_everyDay movements range interval

theorem onlyFails_finish (spec : Spec) (levels : Nat) (isRoot : Bool) (g : Group) :
    OnlyFails (· = .overflow) (g.finish spec isRoot levels) := by
  induction levels generalizing isRoot g with
  | zero =>
      rw [finish]
      exact .ite (.ok none) ((onlyFails_readings _ _).bind fun rs => .ok _)
  | succ levels ih =>
      rw [finish]
      refine (OnlyFails.filterMapM (ih false) g.children).bind fun children => ?_
      refine .ite (.ok none) (.ite ?_ ((OnlyFails.ok g.fund).bind fun fund => .ok _))
      exact (Decimal.onlyFails_checkedSumFrom _ _).bind fun fund => .ok _

end Group

theorem onlyFails_convert (rates : RateLookup) (amount : Decimal) (currency target : String)
    (date : Option Date) :
    OnlyFails Failure.IsOfAmounts (rates.convert amount currency target date) := by
  unfold RateLookup.convert
  refine .ite (.ok amount) ?_
  split
  · exact (Decimal.onlyFails_checkedMul _ _).imp fun _ => Failure.isOfAmounts_of_eq_overflow
  · exact .error (.missingRate currency target date)

theorem onlyFails_amountOf (spec : Spec) (rates : RateLookup) (p : Posting) (amount : Decimal) :
    OnlyFails Failure.IsOfAmounts (spec.amountOf rates p amount) := by
  unfold Spec.amountOf
  refine .ite (.ok Decimal.one) ?_
  split
  · exact .ok amount
  · exact onlyFails_convert _ _ _ _ _

section

variable {P : Failure → Prop} {spec : Spec} {rates : RateLookup} (hoverflow : P .overflow)
  (hamount : ∀ p amount, OnlyFails P (spec.amountOf rates p amount))
  (entries : List (Posting × Decimal))

include hoverflow hamount

theorem onlyFails_enterAll (all : Grouping) :
    OnlyFails P (entries.foldlM (enterPosting spec rates) all) := by
  refine .foldlM ?_ entries all
  rintro all ⟨p, amount⟩
  refine (hamount p amount).bind fun amount e he => ?_
  obtain rfl := Group.onlyFails_enter _ _ _ all.root e (Grouping.enter_eq_error.1 he)
  exact hoverflow

/-- A subtotal fails with what the amounts of postings fail with, or with a sum out of range. -/
theorem onlyFails_ofPostings_of : OnlyFails P (ofPostings spec rates entries) := by
  refine (onlyFails_enterAll hoverflow hamount entries _).bind fun all =>
    .bind ?_ fun tree => .ok _
  refine (Group.onlyFails_finish spec _ true all.root).imp ?_
  rintro _ rfl
  exact hoverflow

end

/-- A subtotal fails for a missing rate or an amount out of range, and for nothing else. -/
theorem onlyFails_ofPostings (spec : Spec) (rates : RateLookup)
    (entries : List (Posting × Decimal)) :
    OnlyFails Failure.IsOfAmounts (ofPostings spec rates entries) :=
  onlyFails_ofPostings_of .overflow (onlyFails_amountOf spec rates) entries

/-! ## Walks -/

/-- A walk fails with what its steps fail with. -/
theorem Walk.onlyFails_runFrom {π ω : Type} {P : Failure → Prop} (w : Walk (Except Failure) π ω)
    (hleaf : ∀ path v, OnlyFails P (w.leaf path v))
    (hreading : ∀ path v r g, OnlyFails P (w.reading path v r g))
    (hdown : ∀ path v, OnlyFails P (w.down path v))
    (hup : ∀ path child v result, OnlyFails P (w.up path child v result))
    (hcombine : ∀ path v results, OnlyFails P (w.combine path v results))
    (interval : Option Granularity) (levels : List Level) (path : π) (v : Visit) :
    OnlyFails P (w.runFrom interval levels path v) := by
  induction levels generalizing path v with
  | nil =>
      cases interval with
      | none => exact hleaf path v
      | some g => exact (OnlyFails.mapM (fun r => hreading path v r g) _).bind (hcombine path v)
  | cons level rest ih =>
      rw [runFrom]
      refine .bind (.mapM ?_ _) (hcombine path v)
      intro child
      exact (hdown path _).bind fun childPath => (ih childPath _).bind (hup path childPath _)

end Subtotal

end Bookkeeping
