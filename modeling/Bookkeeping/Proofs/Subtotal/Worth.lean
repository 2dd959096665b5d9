import Bookkeeping.Proofs.Subtotal.Finishing
import Bookkeeping.Proofs.Subtotal.Partition
import Bookkeeping.Proofs.Subtotal.ReadingValues

set_option autoImplicit false

/-! # What finished groups are worth

A finished group said on values, also where groups that come to nothing are dropped. Whether a
group is left, `Spec.keeps`, and what it is worth, `Spec.worth`, follow from its entries alone. A
finished group presents entries, `Tree.Presents`, if the groups left below it are those that are
kept, in the order in which the entries come up with their keys, each of them worth what it should
be worth.

Where the entries that are taken add up exactly, a group can always be finished, and it presents
the entries that it holds. -/

namespace Bookkeeping.Subtotal

open Decimal (SummableAt ExactlySummable)

/-! ## Values of entries -/

/-- What the entries that are taken come to. -/
def takenValue (es : List Entry) : ℚ := takenSum (·.2.toRat) es

/-- The magnitudes of the entries that are taken together. -/
def takenLoad (es : List Entry) : ℚ := takenSum (|·.2.toRat|) es

namespace Spec

variable (spec : Spec)

/-- Whether the group of some entries, with so many levels below it, is kept. Where groups are
    dropped, a last-level group has to be worth something and any other one has to have a group
    left below it. -/
def keeps : Nat → List Entry → Bool
  | 0, es => !spec.prunes || !decide (|takenValue es| < 1 / 10 ^ 6)
  | levels + 1, es =>
      !spec.prunes || (firstKeys es).any fun key => keeps levels (within key es)

/-- The keys of the groups that are left right below a group. -/
def keptKeys (levels : Nat) (es : List Entry) : List Key :=
  (firstKeys es).filter fun key => spec.keeps levels (within key es)

/-- What the group of some entries is worth: the groups that are left below it together. -/
def worth : Nat → List Entry → ℚ
  | 0, es => takenValue es
  | levels + 1, es => ((spec.keptKeys levels es).map fun key => worth levels (within key es)).sum

end Spec

/-- A finished group with so many levels below it presents entries: the groups that are left, and
    what they are worth and read. -/
def Tree.Presents (spec : Spec) : Nat → List Entry → Tree → Prop
  | 0, es, t =>
      t.children = [] ∧ t.fund.toRat = spec.worth 0 es ∧
        t.readings.map Reading.value =
          Group.readingValues spec.series ((taken es).map (·.movement))
  | levels + 1, es, t =>
      t.readings = [] ∧ t.fund.toRat = spec.worth (levels + 1) es ∧
        t.children.map (·.key) = spec.keptKeys levels es ∧
        ∀ child ∈ t.children, child.Presents spec levels (within child.key es)

theorem Tree.Presents.fund_eq {spec : Spec} {levels : Nat} {es : List Entry} {t : Tree}
    (h : t.Presents spec levels es) : t.fund.toRat = spec.worth levels es := by
  cases levels with
  | zero => exact h.2.1
  | succ levels => exact h.2.1

/-! ## Sums of what is taken -/

theorem amounts_taken_within_sublist (key : Key) (es : List Entry) :
    (amounts (taken (within key es))).Sublist (amounts (taken es)) := by
  rw [← within_taken]
  exact amounts_within_sublist key (taken es)

theorem Sums.toRat_eq {s : Nat} {es : List Entry} {fund : Decimal} (h : Sums es fund)
    (hsum : SummableAt s (amounts (taken es))) : fund.toRat = takenValue es := by
  obtain ⟨total, htotal, hvalue⟩ := ExactlySummable.checkedSum ⟨s, hsum⟩
  rw [Sums, htotal] at h
  cases h
  rw [hvalue, amounts, List.map_map]
  rfl

/-- A sum of whole numbers of units is a whole number of units. -/
theorem whole_sum {s : Nat} {values : List ℚ}
    (h : ∀ v ∈ values, ∃ n : Int, v * 10 ^ s = n) : ∃ n : Int, values.sum * 10 ^ s = n := by
  induction values with
  | nil => exact ⟨0, by simp⟩
  | cons v rest ih =>
      obtain ⟨m, hm⟩ := h v List.mem_cons_self
      obtain ⟨n, hn⟩ := ih fun w hw => h w (List.mem_cons_of_mem v hw)
      exact ⟨m + n, by rw [List.sum_cons, add_mul, hm, hn, Int.cast_add]⟩

namespace Spec

variable {spec : Spec} {levels : Nat} {es : List Entry}

theorem keeps_eq_true (hkeep : spec.prunes = false) : spec.keeps levels es = true := by
  cases levels <;> rw [keeps, hkeep] <;> rfl

/-- Where no groups are dropped, a group is worth the entries that are taken. -/
theorem worth_eq_takenValue (hkeep : spec.prunes = false) (h : HaveDepth levels es) :
    spec.worth levels es = takenValue es := by
  induction levels generalizing es with
  | zero => rfl
  | succ levels ih =>
      have hall : spec.keptKeys levels es = firstKeys es :=
        List.filter_eq_self.2 fun _ _ => keeps_eq_true hkeep
      rw [worth, hall, takenValue, ← h.takenSum_firstKeys]
      exact congrArg List.sum (List.map_congr_left fun key _ => ih (h.within key))

theorem worth_whole {s : Nat} (h : ∀ a ∈ amounts (taken es), ∃ n : Int, a.toRat * 10 ^ s = n) :
    ∃ n : Int, spec.worth levels es * 10 ^ s = n := by
  induction levels generalizing es with
  | zero =>
      refine whole_sum fun v hv => ?_
      obtain ⟨e, he, rfl⟩ := List.mem_map.1 hv
      exact h _ (List.mem_map.2 ⟨e, he, rfl⟩)
  | succ levels ih =>
      refine whole_sum fun v hv => ?_
      obtain ⟨key, _, rfl⟩ := List.mem_map.1 hv
      exact ih fun a ha => h a ((amounts_taken_within_sublist key es).subset ha)

/-- What is no larger than the groups that are left is together no larger than the entries. -/
theorem sum_keptKeys_le (h : HaveDepth (levels + 1) es) {f : Key → ℚ}
    (hf : ∀ key, f key ≤ takenLoad (within key es)) :
    ((spec.keptKeys levels es).map f).sum ≤ takenLoad es := by
  refine (List.sum_le_sum fun key _ => hf key).trans ?_
  rw [takenLoad, ← h.takenSum_firstKeys]
  refine (List.filter_sublist.map _).sum_le_sum ?_
  intro x hx
  obtain ⟨key, _, rfl⟩ := List.mem_map.1 hx
  refine List.sum_nonneg fun y hy => ?_
  obtain ⟨e, _, rfl⟩ := List.mem_map.1 hy
  exact abs_nonneg _

/-- What a group is worth is no larger than the entries that are taken together. -/
theorem abs_worth_le (h : HaveDepth levels es) : |spec.worth levels es| ≤ takenLoad es := by
  induction levels generalizing es with
  | zero => exact abs_sum_le fun _ _ => le_refl _
  | succ levels ih =>
      exact (abs_sum_le fun _ _ => le_refl _).trans
        (sum_keptKeys_le h fun key => ih (h.within key))

end Spec

/-! ## Finishing -/

namespace Group

variable {spec : Spec} {levels : Nat} {es : List Entry} {g : Group} {isRoot : Bool}

/-- The groups left right below a group add up exactly. -/
theorem summable_kept {s : Nat} (hdepth : HaveDepth (levels + 1) es)
    (hsum : SummableAt s (amounts (taken es))) {kept : List Tree}
    (hkeys : kept.map (·.key) = spec.keptKeys levels es)
    (hkept : ∀ t ∈ kept, t.Presents spec levels (within t.key es)) :
    SummableAt s (kept.map (·.fund)) ∧
      (kept.map (·.fund.toRat)).sum = spec.worth (levels + 1) es := by
  have hfund : kept.map (·.fund.toRat) =
      (spec.keptKeys levels es).map fun key => spec.worth levels (within key es) := by
    rw [← hkeys, List.map_map]
    exact List.map_congr_left fun t ht => (hkept t ht).fund_eq
  refine ⟨⟨hsum.scale_le, ?_, ?_⟩, by rw [hfund]; rfl⟩
  · intro a ha
    obtain ⟨t, ht, rfl⟩ := List.mem_map.1 ha
    rw [(hkept t ht).fund_eq]
    exact Spec.worth_whole fun a ha =>
      hsum.whole a ((amounts_taken_within_sublist t.key es).subset ha)
  · -- the groups below are together no larger than the entries that are taken
    refine lt_of_le_of_lt (mul_le_mul_of_nonneg_right ?_ (by positivity)) hsum.bounded
    have hload : ((amounts (taken es)).map fun a => |a.toRat|).sum = takenLoad es := by
      rw [amounts, List.map_map]
      rfl
    have habs : (kept.map (·.fund)).map (fun a => |a.toRat|) =
        (spec.keptKeys levels es).map fun key => |spec.worth levels (within key es)| := by
      rw [List.map_map, ← hkeys, List.map_map]
      exact List.map_congr_left fun t ht => congrArg abs (hkept t ht).fund_eq
    rw [habs, hload]
    exact Spec.sum_keptKeys_le hdepth fun key => Spec.abs_worth_le (hdepth.within key)

/-- The sum of a group with the groups left below it. -/
theorem Holds.exists_fund {s : Nat} (h : g.Holds (levels + 1) es)
    (hdepth : HaveDepth (levels + 1) es) (hsum : SummableAt s (amounts (taken es)))
    {kept : List Tree} (hkeys : kept.map (·.key) = spec.keptKeys levels es)
    (hkept : ∀ t ∈ kept, t.Presents spec levels (within t.key es)) :
    ∃ fund : Decimal, fund.toRat = spec.worth (levels + 1) es ∧
      (if spec.prunes then Decimal.checkedSum (kept.map (·.fund)) else .ok g.fund) =
        .ok fund := by
  cases hprunes : spec.prunes with
  | false =>
      refine ⟨g.fund, ?_, rfl⟩
      rw [Spec.worth_eq_takenValue hprunes hdepth]
      exact h.sums.toRat_eq hsum
  | true =>
      obtain ⟨hsummable, hworth⟩ := summable_kept hdepth hsum hkeys hkept
      obtain ⟨fund, hfund, hvalue⟩ := ExactlySummable.checkedSum ⟨s, hsummable⟩
      rw [List.map_map] at hvalue
      exact ⟨fund, hvalue.trans hworth, hfund⟩

/-- A last-level group whose entries add up exactly. -/
theorem Holds.finish_leaf_presents {s : Nat} (h : g.Holds 0 es)
    (hsum : SummableAt s (amounts (taken es))) :
    ∃ t : Tree, t.key = g.key ∧ t.Presents spec 0 es ∧
      g.finish spec isRoot 0 = .ok (if isRoot || spec.keeps 0 es then some t else none) := by
  obtain ⟨_, hmovements, _, hsums⟩ := h
  have hvalue := hsums.toRat_eq hsum
  have hread : SummableAt s (g.movements.map (·.2)) := by
    rw [hmovements, List.map_map]
    exact hsum
  obtain ⟨found, hfound, hvalues⟩ := readings_values hread spec.series
  rw [hmovements] at hvalues
  refine ⟨⟨g.key, g.fund, [], found⟩, rfl, ⟨rfl, hvalue, hvalues⟩, ?_⟩
  have hnegligible : g.fund.isNegligible = decide (|takenValue es| < 1 / 10 ^ 6) := by
    rw [Bool.eq_iff_iff, Decimal.isNegligible_iff, hvalue, decide_eq_true_iff]
  rw [Group.finish, hnegligible, hfound, ok_bind, Spec.keeps]
  cases isRoot <;> cases spec.prunes <;> cases decide (|takenValue es| < 1 / 10 ^ 6) <;> rfl

/-- A group whose entries add up exactly can be finished. It presents its entries, if it is
    kept. -/
theorem Holds.finish_presents {s : Nat} (h : g.Holds levels es) (hdepth : HaveDepth levels es)
    (hsum : SummableAt s (amounts (taken es))) :
    ∃ t : Tree, t.key = g.key ∧ t.Presents spec levels es ∧
      g.finish spec isRoot levels =
        .ok (if isRoot || spec.keeps levels es then some t else none) := by
  induction levels generalizing es g isRoot with
  | zero => exact h.finish_leaf_presents hsum
  | succ levels ih =>
      have hbelow : ∀ child ∈ g.children, ∃ t : Tree,
          (t.key = child.key ∧ t.Presents spec levels (within child.key es)) ∧
            child.finish spec false levels =
              .ok (if spec.keeps levels (within child.key es) then some t else none) := by
        intro child hchild
        obtain ⟨t, hkey, hpresents, hfinish⟩ := ih (h.1.holds child hchild)
          (hdepth.within child.key) (hsum.sublist (amounts_taken_within_sublist child.key es))
        exact ⟨t, ⟨hkey, hpresents⟩, hfinish⟩
      obtain ⟨pairs, hfilter, hpairs, hchildren⟩ := filterMapM_filter hbelow
      have hkept : ∀ t ∈ pairs.map Prod.snd, t.Presents spec levels (within t.key es) := by
        intro t ht
        obtain ⟨pair, hpair, rfl⟩ := List.mem_map.1 ht
        obtain ⟨hkey, hpresents⟩ := hpairs pair hpair
        rw [hkey]
        exact hpresents
      have hkeys : (pairs.map Prod.snd).map (·.key) = spec.keptKeys levels es := by
        rw [Spec.keptKeys, ← h.1.keys_eq, List.filter_map]
        refine Eq.trans ?_ (congrArg (List.map (·.key)) hfilter)
        rw [List.map_map, List.map_map]
        exact List.map_congr_left fun pair hpair => (hpairs pair hpair).1
      have hempty : (pairs.map Prod.snd).isEmpty =
          !(firstKeys es).any fun key => spec.keeps levels (within key es) := by
        rw [Bool.eq_iff_iff, List.isEmpty_iff, ← List.map_eq_nil_iff (f := Tree.key), hkeys,
          Spec.keptKeys, List.filter_eq_nil_iff]
        simp
      obtain ⟨fund, hvalue, hfund⟩ := h.exists_fund hdepth hsum hkeys hkept
      refine ⟨⟨g.key, fund, pairs.map Prod.snd, []⟩, rfl, ⟨rfl, hvalue, hkeys, hkept⟩, ?_⟩
      rw [Group.finish, hchildren, ok_bind, hempty, Spec.keeps]
      cases hprunes : spec.prunes with
      | false =>
          rw [hprunes] at hfund
          cases hfund
          cases isRoot <;> rfl
      | true =>
          have hsummed : Decimal.checkedSum ((pairs.map Prod.snd).map (·.fund)) = .ok fund := by
            rw [hprunes] at hfund
            exact hfund
          rw [hsummed]
          cases isRoot <;>
            cases (firstKeys es).any fun key => spec.keeps levels (within key es) <;> rfl

end Group

end Bookkeeping.Subtotal
