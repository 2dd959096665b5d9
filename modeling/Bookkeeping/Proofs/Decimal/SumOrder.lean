import Bookkeeping.Proofs.Decimal.Rounding

set_option autoImplicit false

/-! # Sums in any order

Sums of summable amounts have one value, in whatever order the amounts are added, and so has every
balance on the way: a beginning of the amounts is summable itself, and what is next can be added to
its sum. The sums may be written with different numbers of decimals, though. A sum takes over the
decimals of its terms as far as they fit, and where it comes to zero they do not count any more. -/

namespace Bookkeeping.Decimal

/-- The balance before an amount and the one after it are exact. -/
theorem ExactlySummable.running {front back : List Decimal} {next : Decimal}
    (h : ExactlySummable (front ++ next :: back)) :
    ∃ balance sum, Decimal.checkedSum front = .ok balance ∧
      balance.toRat = (front.map toRat).sum ∧ balance.checkedAdd next = .ok sum ∧
      sum.toRat = balance.toRat + next.toRat := by
  have hafter : ExactlySummable (front ++ [next]) := by
    refine h.subperm (List.Sublist.subperm ?_)
    exact (List.singleton_sublist.2 List.mem_cons_self).append_left front
  have hbefore : ExactlySummable front :=
    hafter.subperm (List.sublist_append_left front [next]).subperm
  obtain ⟨balance, hbalance, hvalue⟩ := hbefore.checkedSum
  obtain ⟨sum, hsum, hsumValue⟩ := hafter.checkedSum
  rw [checkedSum_append_singleton, hbalance, ok_bind] at hsum
  refine ⟨balance, sum, hbalance, hvalue, hsum, ?_⟩
  rw [hsumValue, hvalue, List.map_append, List.sum_append, List.map_singleton, List.sum_singleton]

/-- Summable amounts add up to their exact sum in any order, and every addition on the way is
    exact. -/
theorem checkedSum_exact_in_any_order {amounts order : List Decimal}
    (h : ExactlySummable amounts) (hperm : order.Perm amounts) :
    (∃ total, checkedSum order = .ok total ∧ total.toRat = (amounts.map toRat).sum) ∧
      ∀ front next back, order = front ++ next :: back →
        ∃ balance sum, checkedSum front = .ok balance ∧ balance.toRat = (front.map toRat).sum ∧
          balance.checkedAdd next = .ok sum ∧ sum.toRat = balance.toRat + next.toRat := by
  have horder : ExactlySummable order := h.subperm hperm.subperm
  constructor
  · obtain ⟨total, htotal, hvalue⟩ := horder.checkedSum
    exact ⟨total, htotal, hvalue.trans (hperm.map toRat).sum_eq⟩
  · rintro front next back rfl
    exact horder.running

/-- Seven with as many zeros behind the point as there is room for. -/
def sevenInFull : Decimal := ⟨false, 70000000000000000000000000000, 28, by decide, by decide⟩

/-- A thousand without decimals. -/
def thousand : Decimal := ⟨false, 1000, 0, by decide, zero.scale_le⟩

theorem exactlySummable_seven : ExactlySummable [sevenInFull, thousand, thousand.neg] := by
  have hseven : sevenInFull.toRat = 7 := by
    rw [toRat_eq]
    norm_num [sevenInFull, coeff]
  have hthousand : thousand.toRat = 1000 := by
    rw [toRat_eq]
    norm_num [thousand, coeff]
  -- all are whole, but at scale 28 the first two would be too large together
  refine ⟨0, by decide, ?_, ?_⟩
  · simp only [List.forall_mem_cons, toRat_neg, hseven, hthousand]
    exact ⟨⟨7, by norm_num⟩, ⟨1000, by norm_num⟩, ⟨-1000, by norm_num⟩, by simp⟩
  · norm_num [hseven, hthousand]

/-- With the thousand on top three of the zeros of seven do not fit, and they are all that is lost;
    where the thousands come first, seven keeps its zeros. -/
theorem checkedSum_exact_in_any_order_seven :
    ExactlySummable [sevenInFull, thousand, thousand.neg] ∧
      [thousand, thousand.neg, sevenInFull].Perm [sevenInFull, thousand, thousand.neg] ∧
      ∃ seven : Decimal, seven.scale = 25 ∧ seven.toRat = sevenInFull.toRat ∧
        checkedSum [sevenInFull, thousand, thousand.neg] = .ok seven ∧
        checkedSum [thousand, thousand.neg, sevenInFull] = .ok sevenInFull ∧
        ∃ sum, sevenInFull.checkedAdd thousand = .ok sum ∧
          sum.toRat = sevenInFull.toRat + thousand.toRat := by
  have hperm : ([thousand, thousand.neg] ++ [sevenInFull]).Perm
      ([sevenInFull] ++ [thousand, thousand.neg]) := List.perm_append_comm
  obtain ⟨⟨total, htotal, hvalue⟩, hrunning⟩ :=
    checkedSum_exact_in_any_order exactlySummable_seven (.refl _)
  obtain ⟨⟨other, hother, hsame⟩, -⟩ := checkedSum_exact_in_any_order exactlySummable_seven hperm
  obtain ⟨balance, sum, hbalance, -, hsum, hexact⟩ :=
    hrunning [sevenInFull] thousand [thousand.neg] rfl
  cases htotal
  cases hother
  cases hbalance
  exact ⟨exactlySummable_seven, hperm, _, rfl, hvalue.trans hsame.symm, rfl, rfl, sum, hsum, hexact⟩

end Bookkeeping.Decimal
