import Bookkeeping.Proofs.Query.Compilation
import Bookkeeping.Proofs.Subtotal.ReadingValues

set_option autoImplicit false

/-! # Comparisons within the tolerance

Amounts are compared through their difference, and the difference may have to be rounded or may be
out of range. Neither is ever seen: a difference that is rounded is far larger than the tolerance,
and so is one that does not fit. A comparison is therefore one of values, exact at the tolerance
itself, and so is whatever is decided by one: whether a filter accepts the fund of a detail, and
whether the balance of a day is a new one. The balances themselves are sums that may be rounded on
the way; they are compared as they come out. -/

namespace Bookkeeping

/-! ## Amounts -/

namespace Decimal

/-- Whether a comparison of amounts asks if their values differ by at most a millionth. -/
structure ComparesValues (near : Decimal → Decimal → Bool) : Prop where
  iff : ∀ a b, near a b = true ↔ |a.toRat - b.toRat| ≤ 1 / 10 ^ 6
  refl : ∀ a, near a a = true
  symm : ∀ a b, near a b = near b a
  /-- Only the values matter, and not the decimals they are written with. -/
  congr : ∀ a a' b b', a.toRat = a'.toRat → b.toRat = b'.toRat → near a b = near a' b'

theorem comparesValues_near : ComparesValues near where
  iff := near_iff
  refl a := by
    rw [near_iff, sub_self, abs_zero]
    positivity
  symm a b := by
    rw [Bool.eq_iff_iff, near_iff, near_iff, abs_sub_comm]
  congr a a' b b' ha hb := by
    rw [Bool.eq_iff_iff, near_iff, near_iff, ha, hb]

end Decimal

/-! ## Funds of details -/

/-- The fund that a filter asks for is compared by value; everything else is as without it. -/
theorem DetailFilter.accepts_fund_iff (f : DetailFilter) (d : Detail) :
    f.accepts d = true ↔ ({ f with fund := none } : DetailFilter).accepts d = true ∧
      ∀ wanted ∈ f.fund, |d.fund.toRat - wanted.toRat| ≤ 1 / 10 ^ 6 := by
  simp only [accepts_iff, ← Decimal.near_iff]
  constructor
  · exact fun h => ⟨{ h with fund := by simp }, h.fund⟩
  · exact fun ⟨h, hfund⟩ => { h with fund := hfund }

/-! ## Changed days -/

/-- What changed days come to. Where the movements add up, those days are read whose balance, as
    it is added up, differs by value from the last one read, and where they do not, nothing is. -/
inductive Series.ReadsChanges (movements : List Movement) : Except Failure (List Reading) → Prop
  where
  | read (ends : Option Date → Decimal)
      (hends : ∀ date, addedUp (byDate movements) date = .ok (ends date)) :
      ReadsChanges movements (.ok ((changedDays (fun d => (ends d).toRat) none
        (days movements)).map fun e => ⟨e.1, ends e.1⟩))
  | fails {e : Failure} (h : Decimal.checkedSum ((byDate movements).map (·.2)) = .error e) :
      ReadsChanges movements (.error e)

theorem Series.changedDay_readsChanges (movements : List Movement) :
    ReadsChanges movements (changedDay movements) := by
  cases htotal : Decimal.checkedSum ((byDate movements).map (·.2)) with
  | ok total =>
      obtain ⟨ends, hends, hreadings⟩ := changedDay_eq htotal
      rw [hreadings]
      exact .read ends hends
  | error e =>
      have hfails : changedDay movements = .error e := changesFrom_error htotal
      rw [hfails]
      exact .fails htotal

/-! ## Either of them -/

/-- Amounts are near each other exactly if their values differ by at most a millionth, over the
    whole range of amounts: a difference that is rounded is on the same side as the exact one, and
    where there is none the amounts are far apart. So the fund of a detail is compared by value, and
    so are the balances of the days that are read. -/
theorem Decimal.near_is_exact :
    ComparesValues near ∧
    (∀ a b d, sub a b = some d → (d.abs ≤ tolerance ↔ |a.toRat - b.toRat| ≤ 1 / 10 ^ 6)) ∧
    (∀ a b, sub a b = none → 1 / 10 ^ 6 < |a.toRat - b.toRat|) ∧
    (∀ (f : DetailFilter) (d : Detail), f.accepts d = true ↔
      ({ f with fund := none } : DetailFilter).accepts d = true ∧
        ∀ wanted ∈ f.fund, |d.fund.toRat - wanted.toRat| ≤ 1 / 10 ^ 6) ∧
    ∀ movements, Series.ReadsChanges movements (Series.changedDay movements) :=
  ⟨comparesValues_near, fun _ _ _ h => abs_le_tolerance_of_sub h,
    fun _ _ h => lt_abs_of_sub_eq_none h, DetailFilter.accepts_fund_iff,
    Series.changedDay_readsChanges⟩

end Bookkeeping
