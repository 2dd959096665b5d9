import Bookkeeping.Proofs.Decimal.Rounding
import Bookkeeping.Proofs.Subtotal.Conservation
import Bookkeeping.Proofs.Subtotal.GroupBy
import Bookkeeping.Proofs.Subtotal.Partition

set_option autoImplicit false

/-! # Sums are conserved up to rounding

A group and the groups right below it add up the same amounts in different orders, and each
addition may round. `Tree.Conserves` allows for a difference at every group above the last level.

Where no groups are dropped, the sum of a group is off by at most `ε` for each of its entries, and
so are the sums of the groups below it together, since these share out the entries. Where groups
are dropped, a group is worth the sum of what is left below it. There the difference comes from
that one sum, and what has to be shown is that the sums below stay small: together they are not
larger than the amounts entered and `ε` for each of these. -/

namespace Bookkeeping.Subtotal

open Decimal (halfUnit halfUnit_pos load load_eq load_cons load_nonneg load_le_of_sublist)

/-- Every group above the last level is worth what those right below it are worth together, up to
    a tolerance. -/
def Tree.Conserves (tolerance : ℚ) : Nat → Tree → Prop
  | 0, _ => True
  | levels + 1, t =>
      |t.fund.toRat - (t.children.map (·.fund.toRat)).sum| ≤ tolerance ∧
        ∀ child ∈ t.children, child.Conserves tolerance levels

namespace Tree

variable {spec : Spec} {levels : Nat} {es : List Entry} {t : Tree}

theorem Conserves.mono {tolerance larger : ℚ} (hle : tolerance ≤ larger)
    (h : t.Conserves tolerance levels) : t.Conserves larger levels := by
  induction levels generalizing t with
  | zero => trivial
  | succ levels ih =>
      obtain ⟨hfund, hchildren⟩ := h
      exact ⟨hfund.trans hle, fun child hchild => ih (hchildren child hchild)⟩

/-- Without a tolerance, sums are conserved exactly. -/
theorem conserves_zero : t.Conserves 0 levels ↔ t.Balanced levels := by
  induction levels generalizing t with
  | zero => exact Iff.rfl
  | succ levels ih =>
      unfold Conserves Balanced
      refine and_congr ?_ (forall₂_congr fun child _ => ih)
      rw [abs_nonpos_iff, sub_eq_zero]

end Tree

/-! ## Distances of sums -/

/-- Sums differ by no more than their terms do together. -/
theorem abs_sum_sub_le {α : Type} {l : List α} {f g h : α → ℚ}
    (hle : ∀ a ∈ l, |f a - g a| ≤ h a) :
    |(l.map f).sum - (l.map g).sum| ≤ (l.map h).sum := by
  have hsum : ((l.map fun a => f a - g a).sum : ℚ) = (l.map f).sum - (l.map g).sum := by
    rw [eq_sub_iff_add_eq, ← List.sum_map_add]
    simp only [sub_add_cancel]
  rw [← hsum]
  exact abs_sum_le hle

theorem takenSum_const (c : ℚ) (es : List Entry) :
    takenSum (fun _ => c) es = (taken es).length * c := by
  rw [takenSum, List.map_const', List.sum_replicate, nsmul_eq_mul]

/-! ## Where no groups are dropped -/

/-- Sums of parts of the amounts are off by at most `ε` for each of them. -/
def DriftsBy (ε : ℚ) (amounts : List Decimal) : Prop :=
  ∀ (part : List Decimal) (total : Decimal), part.Sublist amounts →
    Decimal.checkedSum part = .ok total →
      |total.toRat - (part.map (·.toRat)).sum| ≤ part.length * ε

theorem DriftsBy.sublist {ε : ℚ} {amounts part : List Decimal} (h : DriftsBy ε amounts)
    (hsub : part.Sublist amounts) : DriftsBy ε part :=
  fun inner total hinner => h inner total (hinner.trans hsub)

namespace Tree

variable {spec : Spec} {levels : Nat} {es : List Entry} {t : Tree} {ε : ℚ}

theorem Shows.abs_fund_sub_le (h : t.Shows spec levels es) (hdrift : DriftsBy ε (amounts es)) :
    |t.fund.toRat - takenSum (·.2.toRat) es| ≤ takenSum (fun _ => ε) es := by
  have hfund := hdrift _ t.fund (amounts_taken_sublist es) h.sums
  rw [amounts, List.map_map, List.length_map] at hfund
  rw [takenSum_const]
  exact hfund

/-- A group and the groups right below it are each off by at most `ε` for every entry. -/
theorem Shows.conserves (h : t.Shows spec levels es) (hdepth : HaveDepth levels es) (hε : 0 ≤ ε)
    (hdrift : DriftsBy ε (amounts es)) : t.Conserves (2 * (es.length * ε)) levels := by
  induction levels generalizing t es with
  | zero => trivial
  | succ levels ih =>
      have hfund := h.abs_fund_sub_le hdrift
      obtain ⟨_, hkeys, hchildren, _⟩ := h
      have hwithin (key : Key) : DriftsBy ε (amounts (within key es)) :=
        hdrift.sublist (amounts_within_sublist key es)
      refine ⟨?_, ?_⟩
      · -- what the groups below are off by adds up over the entries they share out
        have hbelow : |(t.children.map (·.fund.toRat)).sum - takenSum (·.2.toRat) es| ≤
            takenSum (fun _ => ε) es := by
          rw [← hdepth.takenSum_firstKeys (·.2.toRat), ← hdepth.takenSum_firstKeys fun _ => ε,
            ← hkeys, List.map_map, List.map_map]
          exact abs_sum_sub_le fun child hchild =>
            (hchildren child hchild).abs_fund_sub_le (hwithin child.key)
        have hcount : takenSum (fun _ => ε) es ≤ es.length * ε := by
          rw [takenSum_const]
          have : ((taken es).length : ℚ) ≤ es.length := by
            exact_mod_cast (taken_sublist es).length_le
          exact mul_le_mul_of_nonneg_right this hε
        rw [abs_sub_comm] at hbelow
        have hsplit := abs_sub_le t.fund.toRat (takenSum (·.2.toRat) es)
          (t.children.map (·.fund.toRat)).sum
        linarith
      · intro child hchild
        refine (ih (hchildren child hchild) (hdepth.within child.key) (hwithin child.key)).mono ?_
        have hlength : ((within child.key es).length : ℚ) ≤ es.length := by
          exact_mod_cast List.length_filterMap_le _ _
        have := mul_le_mul_of_nonneg_right hlength hε
        linarith

end Tree

/-! ## Where groups are dropped -/

theorem taken_ne_nil {es : List Entry} (h : es ≠ []) : taken es ≠ [] := by
  cases es with
  | nil => exact absurd rfl h
  | cons e rest =>
      have hnew : isRepeated [] e = false := by simp [isRepeated]
      rw [taken, takenAfter, hnew, if_neg (by decide)]
      exact List.cons_ne_nil _ _

theorem takenSum_load (k : Nat) (es : List Entry) :
    takenSum (fun m => |m.2.toRat| + halfUnit k) es = load k (amounts (taken es)) := by
  rw [takenSum, load, amounts, List.map_map]
  rfl

theorem halfUnit_le_load (k : Nat) {es : List Entry} (h : es ≠ []) :
    halfUnit k ≤ load k (amounts (taken es)) := by
  obtain ⟨e, rest, htaken⟩ := List.exists_cons_of_ne_nil (taken_ne_nil h)
  have hrest := load_nonneg k (rest.map (·.movement.2))
  have hfirst := abs_nonneg e.movement.2.toRat
  rw [htaken, amounts, List.map_cons, load_cons]
  linarith

/-- The groups of some of the first keys have some of the load. -/
theorem HaveDepth.sum_load_le {levels : Nat} {es : List Entry} (h : HaveDepth (levels + 1) es)
    {keys : List Key} (hsub : keys.Sublist (firstKeys es)) (k : Nat) :
    (keys.map fun key => load k (amounts (Subtotal.taken (Subtotal.within key es)))).sum ≤
      load k (amounts (Subtotal.taken es)) := by
  simp only [← takenSum_load]
  rw [← h.takenSum_firstKeys]
  refine (hsub.map _).sum_le_sum ?_
  intro x hx
  obtain ⟨key, _, rfl⟩ := List.mem_map.1 hx
  rw [takenSum_load]
  exact load_nonneg k _

theorem HaveDepth.length_firstKeys_le {levels : Nat} {es : List Entry}
    (h : HaveDepth (levels + 1) es) : (firstKeys es).length ≤ es.length := by
  have hone := h.sum_firstKeys fun _ => 1
  simp only [List.map_const', List.sum_replicate, smul_eq_mul, mul_one] at hone
  rw [← hone]
  calc (firstKeys es).length = ((firstKeys es).map fun _ => 1).sum := by simp
    _ ≤ ((firstKeys es).map fun key => (Subtotal.within key es).length).sum := by
        refine List.sum_le_sum fun key hkey => ?_
        exact List.length_pos_of_ne_nil (mem_firstKeys.1 hkey)

namespace Group

variable {spec : Spec} {levels k : Nat} {es : List Entry} {g : Group} {isRoot : Bool}

/-- Where groups are dropped, a finished group is not larger than the load of its entries, with
    half a unit to spare, and is worth what the groups left below it are worth, up to half a unit
    for each of these. -/
theorem Holds.finish_pruned (hprunes : spec.prunes = true) (h : g.Holds levels es)
    (hdepth : HaveDepth levels es) (hk : load k (amounts (taken es)) ≤ 7 * 10 ^ k) {t : Tree}
    (hfinish : g.finish spec isRoot levels = .ok (some t)) :
    (es ≠ [] → |t.fund.toRat| + halfUnit k ≤ load k (amounts (taken es))) ∧
      t.Conserves (es.length * halfUnit k) levels := by
  have hunit := halfUnit_pos k
  induction levels generalizing es g isRoot t with
  | zero =>
      refine ⟨fun hne => ?_, trivial⟩
      obtain ⟨_, _, _, hsums⟩ := h
      obtain ⟨readings, _, rfl⟩ := finish_zero_eq_some hfinish
      refine Decimal.abs_checkedSum_le hsums ?_ hk
      rw [amounts, Ne, List.map_eq_nil_iff]
      exact taken_ne_nil hne
  | succ levels ih =>
      obtain ⟨hlists, _⟩ := h
      obtain ⟨fund, children, rfl, hchildren, _, hsum⟩ := finish_succ_eq_some hfinish
      obtain ⟨pairs, hsub, rfl, hpairs⟩ := kept_of_filterMapM hchildren
      have hkeys : (pairs.map (·.1.key)).Sublist (firstKeys es) := by
        have := hsub.map (·.key)
        rwa [List.map_map, hlists.keys_eq] at this
      -- the loads of the groups that are left are parts of the whole one
      have hloads := hdepth.sum_load_le hkeys k
      have hbelow : ∀ pair ∈ pairs, |pair.2.fund.toRat| + halfUnit k ≤
          load k (amounts (taken (within pair.1.key es))) ∧
            pair.2.Conserves ((within pair.1.key es).length * halfUnit k) levels := by
        intro pair hpair
        have hkey := List.mem_map_of_mem (f := (·.1.key)) hpair
        have hpart := hdepth.sum_load_le ((List.singleton_sublist.2 hkey).trans hkeys) k
        rw [List.map_singleton, List.sum_singleton] at hpart
        have hmem := hsub.subset (List.mem_map_of_mem hpair)
        obtain ⟨hfund, hconserves⟩ :=
          ih (hlists.holds _ hmem) (hdepth.within _) (hpart.trans hk) (hpairs pair hpair)
        exact ⟨hfund (mem_firstKeys.1 (hkeys.subset hkey)), hconserves⟩
      -- so the sum of the groups that are left is a sum of small amounts
      have hroom : load k (pairs.map (·.2.fund)) ≤ load k (amounts (taken es)) := by
        have hle := List.sum_le_sum fun pair hpair => (hbelow pair hpair).1
        rw [load, List.map_map]
        rw [List.map_map] at hloads
        exact hle.trans hloads
      have hsmall := hroom.trans hk
      have hfund : Decimal.checkedSum (pairs.map (·.2.fund)) = .ok fund := by
        have := hsum hprunes
        rwa [List.map_map] at this
      refine ⟨fun hne => ?_, ?_, ?_⟩
      · cases pairs with
        | nil =>
            cases hfund
            simpa using halfUnit_le_load k hne
        | cons pair rest =>
            exact (Decimal.abs_checkedSum_le hfund (List.cons_ne_nil _ _) hsmall).trans hroom
      · have herror := Decimal.abs_checkedSum_sub_le hfund hsmall
        have hcount : (((pairs.map (·.2.fund)).length - 1 : Nat) : ℚ) ≤ es.length := by
          have := hkeys.length_le.trans hdepth.length_firstKeys_le
          simp only [List.length_map] at this ⊢
          exact_mod_cast (Nat.sub_le _ 1).trans this
        rw [List.map_map] at herror ⊢
        exact herror.trans (mul_le_mul_of_nonneg_right hcount hunit.le)
      · intro child hchild
        obtain ⟨pair, hpair, rfl⟩ := List.mem_map.1 hchild
        refine (hbelow pair hpair).2.mono (mul_le_mul_of_nonneg_right ?_ hunit.le)
        exact_mod_cast List.length_filterMap_le _ _

end Group

/-! ## The subtotal -/

/-- Amounts of moderate size drift by half a unit each. -/
theorem driftsBy_halfUnit {k : Nat} {amounts : List Decimal} (hk : load k amounts ≤ 7 * 10 ^ k) :
    DriftsBy (halfUnit k) amounts := by
  intro part total hpart htotal
  have herror := Decimal.abs_checkedSum_sub_le htotal ((load_le_of_sublist k hpart).trans hk)
  refine herror.trans (mul_le_mul_of_nonneg_right ?_ (halfUnit_pos k).le)
  exact_mod_cast Nat.sub_le _ _

/-- Things that are counted do not drift. -/
theorem driftsBy_zero {amounts : List Decimal} (hone : ∀ a ∈ amounts, a = .one) :
    DriftsBy 0 amounts := by
  intro part total hpart htotal
  have hscale : ∀ a ∈ part, a.scale = 0 := by
    intro a ha
    rw [hone a (hpart.subset ha)]
    rfl
  rw [Decimal.toRat_checkedSum_whole htotal hscale]
  simp

/-- What is added for a posting is one where things are counted. -/
theorem amount_eq_one {spec : Spec} {rates : RateLookup}
    {entries records : List (Posting × Decimal)}
    (hcount : spec.gather.isCount = true) (h : spec.convertAll rates entries = .ok records) :
    ∀ a ∈ amounts (spec.entriesOf records), a = .one := by
  rw [convertAll_ones hcount] at h
  cases h
  intro a ha
  rw [amounts_entriesOf, ones, List.map_map] at ha
  obtain ⟨_, _, rfl⟩ := List.mem_map.1 ha
  rfl

/-- Fewer entries than there are decimals to spare drift by less than half of a millionth. -/
theorem mul_halfUnit_le {n k : Nat} (h : (n : ℚ) ≤ 10 ^ (22 - (k : Int))) :
    n * halfUnit k ≤ 1 / (2 * 10 ^ 6) := by
  have hpow : (10 : ℚ) ^ (22 - (k : Int)) * 10 ^ k = 10 ^ 22 := by
    rw [zpow_sub₀ (by norm_num), zpow_natCast]
    exact div_mul_cancel₀ _ (by positivity)
  have hle := mul_le_mul_of_nonneg_right h (halfUnit_pos k).le
  refine hle.trans (le_of_eq ?_)
  rw [halfUnit, mul_div_assoc', hpow]
  norm_num

/-- Whatever scales the amounts have: where their magnitudes together are at most `10 ^ k` and
    there are at most `10 ^ (22 - k)` of them, every group above the last level is worth what those
    right below it are worth together, up to a millionth. Where things are counted it is worth
    exactly that. -/
theorem ofPostings_conserves {spec : Spec} {rates : RateLookup}
    {entries : List (Posting × Decimal)} {tree : Tree}
    (h : ofPostings spec rates entries = .ok tree) :
    (spec.gather.isCount = true → tree.Balanced spec.effectiveLevels.length) ∧
      ∃ records, spec.convertAll rates entries = .ok records ∧
        ∀ k : ℕ, (records.map fun r => |r.2.toRat|).sum ≤ 10 ^ k →
          (records.length : ℚ) ≤ 10 ^ (22 - (k : ℤ)) →
            tree.Conserves (1 / 10 ^ 6) spec.effectiveLevels.length := by
  obtain ⟨root, records, hrecords, _, hholds, hfinish⟩ := Group.holds_of_ofPostings h
  have hdepth := HaveDepth.entriesOf spec records
  refine ⟨fun hcount => ?_, records, hrecords, fun k hsize hnumber => ?_⟩
  · have hkeep : spec.prunes = false := by
      unfold Spec.prunes
      cases hgather : spec.gather <;> simp [hgather, Gather.isCount] at hcount ⊢
    obtain ⟨t, ht, _, hshows⟩ := hholds.finish hkeep hfinish
    cases ht
    have hexact := hshows.conserves hdepth le_rfl (driftsBy_zero (amount_eq_one hcount hrecords))
    rw [mul_zero, mul_zero] at hexact
    exact Tree.conserves_zero.1 hexact
  · have hdrift := mul_halfUnit_le hnumber
    have hlength : (spec.entriesOf records).length = records.length := List.length_map _
    have hone : (1 : ℚ) ≤ 10 ^ k := one_le_pow₀ (by norm_num)
    have hsmall : (1 : ℚ) / (2 * 10 ^ 6) ≤ 1 := by norm_num
    have hload : load k (amounts (spec.entriesOf records)) ≤ 7 * 10 ^ k := by
      rw [amounts_entriesOf, load_eq, List.map_map, List.length_map]
      exact (add_le_add hsize hdrift).trans (by linarith)
    cases hprunes : spec.prunes with
    | false =>
        obtain ⟨t, ht, _, hshows⟩ := hholds.finish hprunes hfinish
        cases ht
        have hconserves := hshows.conserves hdepth (halfUnit_pos k).le
          (driftsBy_halfUnit hload)
        refine hconserves.mono ?_
        rw [hlength]
        calc 2 * (records.length * halfUnit k) ≤ 2 * (1 / (2 * 10 ^ 6)) := by linarith
          _ = 1 / 10 ^ 6 := by norm_num
    | true =>
        have hpart := load_le_of_sublist k (amounts_taken_sublist (spec.entriesOf records))
        refine (hholds.finish_pruned hprunes hdepth (hpart.trans hload) hfinish).2.mono ?_
        rw [hlength]
        exact hdrift.trans (by norm_num)

/-- A third, as far as its decimals go. -/
def aThird : Decimal := (Decimal.ofParts? 3333333333333333333333333333 28).getD .zero

/-- The purchases by title, in a currency of which a third as much is needed. -/
def dollarsByTitle : Spec := ⟨some [.title], .nonZero, .none, some ⟨"USD", none⟩⟩

theorem ofPostings_conserves_thirds :
    ∃ tree, ofPostings dollarsByTitle (fun _ _ _ => some aThird) purchases = .ok tree ∧
      tree.Conserves (1 / 10 ^ 6) 1 := by
  obtain ⟨tree, htree⟩ :
      ∃ tree, ofPostings dollarsByTitle (fun _ _ _ => some aThird) purchases = .ok tree :=
    ⟨_, rfl⟩
  obtain ⟨_, records, hrecords, hconserves⟩ := ofPostings_conserves htree
  refine ⟨tree, htree, hconserves 1 ?_ ?_⟩
  · cases hrecords
    decide +kernel
  · cases hrecords
    norm_num

end Bookkeeping.Subtotal
