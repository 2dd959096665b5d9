import Bookkeeping.Proofs.Exchange.History
import Bookkeeping.Proofs.Subtotal.Alike
import Bookkeeping.Proofs.Subtotal.ChangedReadings
import Bookkeeping.Proofs.Subtotal.Drift
import Bookkeeping.Proofs.Subtotal.Failures
import Bookkeeping.Proofs.Subtotal.Pruning

set_option autoImplicit false

/-! # Counting postings and vouchers

Where things are counted, every posting adds one, so no rate is looked up and no sum is rounded.
A group counts its postings, or else its vouchers, each once in every last-level group that it
comes up in: `length_taken_of_vouchers` is what a run over postings in any order comes to. A group
above the last level adds up those below it, so a voucher counts there once for each of them.

A reading counts in the same way what is undated or dated up to the day that it goes up to. For
vouchers that holds because all postings of a voucher have its date: whichever of them was taken,
it counts from the same day on. -/

namespace Bookkeeping.Subtotal

open Decimal (SummableAt ExactlySummable magnitudeBound)

/-- The day up to which the reading of a date goes: that date itself, or the last day of the window
    that begins there, at the latest the end of the range. -/
def dayRead (mode : SeriesMode) (date : Option Date) : Option Date :=
  match mode with
  | .none | .changedDay => date
  | .everyDay range interval =>
      date.map fun bucket =>
        match range.last with
        | some finish => Date.earlier (interval.lastDay bucket) finish
        | none => interval.lastDay bucket

/-- How many things postings count as: the different vouchers that they belong to where those are
    counted, and the postings themselves otherwise. -/
def Spec.number (spec : Spec) (entries : List (Posting × Decimal)) : Nat :=
  if spec.gather = .voucherCount then (entries.map (·.1.voucherPlace)).toFinset.card
  else entries.length

/-- What a tree has to be to count postings. -/
structure Tree.Counts (spec : Spec) (entries : List (Posting × Decimal)) (tree : Tree) : Prop where
  key_eq : tree.key = .root
  /-- The groups are those that some posting belongs to, and the group of everything. -/
  found : ∀ path : List Key,
    (tree.descend? path).isSome = true ↔ path = [] ∨ ∃ e ∈ entries, path <+: spec.keysOf e.1
  /-- The groups right below a group have different keys, in the order of their first postings. -/
  children_eq : ∀ (path : List Key) (node : Tree), path.length < spec.effectiveLevels.length →
    tree.descend? path = some node →
      node.children.map (·.key) = ((spec.recordsAt path entries).filterMap fun e =>
        (spec.keysOf e.1)[path.length]?).eraseDups ∧
      (node.children.map (·.key)).Nodup ∧ node.readings = []
  /-- A last-level group counts its own postings, and so do its readings up to their days. -/
  last : ∀ (path : List Key) (node : Tree), path.length = spec.effectiveLevels.length →
    tree.descend? path = some node →
      node.children = [] ∧ node.fund.toRat = spec.number (spec.recordsAt path entries) ∧
      ∀ r ∈ node.readings, r.fund.toRat = spec.number ((spec.recordsAt path entries).filter
        fun e => Series.notAfter e.1.date (dayRead spec.series r.date))
  /-- Postings are counted in every group that they belong to. -/
  count : spec.gather = .count → ∀ (path : List Key) (node : Tree),
    tree.descend? path = some node → node.fund.toRat = (spec.recordsAt path entries).length
  /-- Vouchers are counted in last-level groups and added up above. -/
  voucherCount : spec.gather = .voucherCount → ∀ (path : List Key) (node : Tree),
    path.length < spec.effectiveLevels.length → tree.descend? path = some node →
      node.fund.toRat = (node.children.map (·.fund.toRat)).sum

/-! ## Vouchers that are taken once -/

section Taken

variable {es : List Entry}

theorem isRepeated_iff (hdepth : HaveDepth 0 es) {e : Entry} (hkeys : e.keys = [])
    (hsome : e.voucher.isSome = true) :
    isRepeated es e = true ↔ e.voucher ∈ es.map (·.voucher) := by
  simp only [isRepeated, hsome, Bool.true_and, List.any_eq_true, Bool.and_eq_true,
    decide_eq_true_eq, List.mem_map, hkeys]
  constructor
  · rintro ⟨b, hb, -, hvoucher⟩
    exact ⟨b, hb, hvoucher⟩
  · rintro ⟨b, hb, hvoucher⟩
    exact ⟨b, hb, List.length_eq_zero_iff.1 (hdepth b hb), hvoucher⟩

/-- Where a group has no keys left, one entry is taken of each voucher. -/
theorem length_taken_of_vouchers (hdepth : HaveDepth 0 es)
    (hsome : ∀ e ∈ es, e.voucher.isSome = true) :
    (taken es).length = (es.map (·.voucher)).toFinset.card := by
  induction es using List.reverseRecOn with
  | nil => rfl
  | append_singleton front e ih =>
      have hfront : HaveDepth 0 front := fun b hb => hdepth b (List.mem_append_left _ hb)
      have he : e ∈ front ++ [e] := List.mem_append_right _ (List.mem_singleton_self e)
      have hrepeated := isRepeated_iff hfront (List.length_eq_zero_iff.1 (hdepth e he)) (hsome e he)
      have ih := ih hfront fun b hb => hsome b (List.mem_append_left _ hb)
      rw [List.map_append, List.toFinset_append, List.map_singleton, Finset.union_comm,
        List.toFinset_cons, List.toFinset_nil, insert_empty_eq, Finset.singleton_union]
      by_cases hmem : e.voucher ∈ front.map (·.voucher)
      · rw [taken_append_of_repeated (hrepeated.2 hmem), ih,
          Finset.insert_eq_of_mem (List.mem_toFinset.2 hmem)]
      · have hnew : isRepeated front e = false := by simpa [hmem] using hrepeated
        rw [taken_append_of_new hnew, List.length_append, ih,
          Finset.card_insert_of_notMem (mt List.mem_toFinset.1 hmem), List.length_singleton]

/-- Whether an entry repeats another can be told among those with the same test of its movement. -/
theorem isRepeated_filter {e : Entry} {p : Movement → Bool} (hone : OneMovementEach (es ++ [e]))
    (hp : p e.movement = true) :
    isRepeated (es.filter fun e => p e.movement) e = isRepeated es e := by
  rw [Bool.eq_iff_iff, isRepeated_eq_any, isRepeated_eq_any, List.any_eq_true, List.any_eq_true]
  constructor
  · rintro ⟨b, hb, hrepeats⟩
    exact ⟨b, (List.mem_filter.1 hb).1, hrepeats⟩
  · rintro ⟨b, hb, hrepeats⟩
    have heq : e = b := hone.eq_of_repeats (by simp) (List.mem_append_left _ hb) hrepeats
    exact ⟨b, List.mem_filter.2 ⟨hb, heq ▸ hp⟩, hrepeats⟩

/-- A test of movements can be made before or after entries are taken, if those that repeat one
    another have the same movement. -/
theorem taken_filter (hone : OneMovementEach es) (p : Movement → Bool) :
    (taken es).filter (fun e => p e.movement) = taken (es.filter fun e => p e.movement) := by
  induction es using List.reverseRecOn with
  | nil => rfl
  | append_singleton front e ih =>
      have ih := ih fun a ha b hb =>
        hone a (List.mem_append_left _ ha) b (List.mem_append_left _ hb)
      by_cases hp : p e.movement = true
      · have hsame := isRepeated_filter hone hp
        cases hr : isRepeated front e with
        | true =>
            rw [hr] at hsame
            rw [taken_append_of_repeated hr, ih, List.filter_append, List.filter_singleton, hp,
              cond_true, taken_append_of_repeated hsame]
        | false =>
            rw [hr] at hsame
            rw [taken_append_of_new hr, List.filter_append, ih, List.filter_append,
              List.filter_singleton, hp, cond_true, taken_append_of_new hsame]
      · have hfilter : (taken (front ++ [e])).filter (fun e => p e.movement) =
            (taken front).filter fun e => p e.movement := by
          cases hr : isRepeated front e with
          | true => rw [taken_append_of_repeated hr]
          | false => simp [taken_append_of_new hr, hp]
        rw [hfilter, ih]
        simp [hp]

end Taken

/-! ## Postings that add one each -/

section Ones

variable {amounts : List Decimal}

theorem sum_map_ones {f : Decimal → ℚ} (hone : ∀ a ∈ amounts, a = .one) (hf : f .one = 1) :
    (amounts.map f).sum = amounts.length := by
  have hconst : amounts.map f = amounts.map fun _ => 1 :=
    List.map_congr_left fun a ha => by rw [hone a ha, hf]
  rw [hconst, List.map_const', List.sum_replicate, nsmul_eq_mul, mul_one]

theorem scale_of_ones (hone : ∀ a ∈ amounts, a = .one) : ∀ a ∈ amounts, a.scale = 0 := by
  intro a ha
  rw [hone a ha]
  rfl

theorem summable_ones (hone : ∀ a ∈ amounts, a = .one) (hlength : amounts.length < magnitudeBound) :
    SummableAt 0 amounts := by
  refine .of_scale_le (Nat.zero_le _) (fun a ha => (scale_of_ones hone a ha).le) ?_
  rw [sum_map_ones hone (by simp), pow_zero, mul_one]
  exact_mod_cast hlength

/-- What movements of one each come to is how many there are. -/
theorem valueWhere_ones {movements : List Movement} (hone : ∀ m ∈ movements, m.2 = .one)
    (p : Movement → Bool) : Series.valueWhere p movements = (movements.filter p).length := by
  have hamounts : ∀ a ∈ (movements.filter p).map (·.2), a = .one :=
    List.forall_mem_map.2 fun m hm => hone m (List.mem_filter.1 hm).1
  have hsum := sum_map_ones hamounts Decimal.toRat_one
  rw [List.map_map, List.length_map] at hsum
  exact hsum

/-- The sum of things that are counted is how many are taken, which is less than the bound. -/
theorem Sums.counted {es : List Entry} {fund : Decimal} (h : Sums es fund)
    (hone : ∀ a ∈ Subtotal.amounts es, a = .one) :
    fund.toRat = (taken es).length ∧ (taken es).length < magnitudeBound := by
  have htaken : ∀ a ∈ Subtotal.amounts (taken es), a = .one :=
    fun a ha => hone a ((amounts_taken_sublist es).subset ha)
  have hfund : fund.toRat = (taken es).length := by
    rw [Decimal.toRat_checkedSum_whole h (scale_of_ones htaken),
      sum_map_ones htaken Decimal.toRat_one, Subtotal.amounts, List.length_map]
  refine ⟨hfund, ?_⟩
  have hlt := (le_abs_self _).trans_lt fund.abs_toRat_lt
  rw [hfund] at hlt
  exact_mod_cast hlt

end Ones

section Units

variable {spec : Spec} {entries part : List (Posting × Decimal)}

/-- What a posting that is counted brings along to its last-level group. -/
def Spec.unit (spec : Spec) (e : Posting × Decimal) : Entry :=
  ⟨[], (e.1.date, .one), spec.voucherOf e.1⟩

theorem recordsAt_ones (spec : Spec) (path : List Key) (entries : List (Posting × Decimal)) :
    spec.recordsAt path (ones entries) = ones (spec.recordsAt path entries) := by
  rw [Spec.recordsAt, ones, List.filter_map]
  rfl

theorem amounts_withinPath_ones (spec : Spec) (path : List Key)
    (entries : List (Posting × Decimal)) :
    ∀ a ∈ amounts (withinPath path (spec.entriesOf (ones entries))), a = .one := by
  rw [withinPath_entriesOf, recordsAt_ones]
  exact List.forall_mem_map.2 (List.forall_mem_map.2 (List.forall_mem_map.2 fun _ _ => rfl))

theorem withinPath_ones {path : List Key} (hlength : path.length = spec.effectiveLevels.length)
    (entries : List (Posting × Decimal)) :
    withinPath path (spec.entriesOf (ones entries)) =
      (spec.recordsAt path entries).map spec.unit := by
  rw [withinPath_entriesOf, recordsAt_ones, ones, List.map_map]
  refine List.map_congr_left fun e _ => ?_
  have hkeys : (spec.keysOf e.1).drop path.length = [] :=
    List.drop_eq_nil_of_le (by rw [spec.length_keysOf, hlength])
  simp [Spec.unit, Spec.entryOf, hkeys]

theorem oneMovementEach_units (spec : Spec) (hvouchers : OfOneVoucherEach part) :
    OneMovementEach (part.map spec.unit) := by
  intro a ha b hb hsome _ hvoucher
  obtain ⟨x, hx, rfl⟩ := List.mem_map.1 ha
  obtain ⟨y, hy, rfl⟩ := List.mem_map.1 hb
  exact congrArg (·, Decimal.one) (hvouchers.date_eq hx hy hsome hvoucher)

/-- A last-level group takes as many postings as are to be counted. -/
theorem length_taken_units (part : List (Posting × Decimal)) :
    (taken (part.map spec.unit)).length = spec.number part := by
  unfold Spec.number
  split
  · next hgather =>
      have hvoucher (e : Posting × Decimal) : (spec.unit e).voucher = some e.1.voucherPlace :=
        if_pos hgather
      have hdepth : HaveDepth 0 (part.map spec.unit) := List.forall_mem_map.2 fun _ _ => rfl
      have hsome : ∀ e ∈ part.map spec.unit, e.voucher.isSome = true :=
        List.forall_mem_map.2 fun e _ => by rw [hvoucher, Option.isSome_some]
      have hplaces : (part.map spec.unit).map (·.voucher) =
          (part.map (·.1.voucherPlace)).map some := by
        simp [hvoucher]
      rw [length_taken_of_vouchers hdepth hsome, hplaces, List.card_toFinset, List.card_toFinset,
        List.dedup_map_of_injective (Option.some_injective Nat), List.length_map]
  · next hgather =>
      have hnone : ∀ e ∈ part.map spec.unit, e.voucher = none :=
        List.forall_mem_map.2 fun _ _ => if_neg hgather
      rw [taken_eq_self hnone, List.length_map]

end Units

/-! ## Readings -/

/-- Every reading is the balance of the day that it goes up to. -/
theorem balance_of_mem_readingValues {mode : SeriesMode} {movements : List Movement} :
    ∀ r ∈ Group.readingValues mode movements,
      r.2 = Series.balanceAt movements (dayRead mode r.1) := by
  cases mode with
  | none => simp [Group.readingValues]
  | changedDay => exact Series.changedDays_balance
  | everyDay range interval =>
      intro r hr
      rw [Group.readingValues] at hr
      by_cases hspans : ∃ start finish, Series.Spans movements range start finish ∧ start ≤ finish
      · obtain ⟨start, finish, hspans, hle⟩ := hspans
        rw [Series.windows_of_spans hspans hle, List.mem_map] at hr
        obtain ⟨bucket, -, rfl⟩ := hr
        rcases hspans.finish with hclosed | ⟨hopen, hfinish⟩
        · simp [dayRead, hclosed]
        · simp [dayRead, hopen, Series.balanceAt_earlier_lastDate hfinish]
      · rw [Series.windows_eq_nil] at hr
        · cases hr
        · intro start finish hfound
          by_contra hle
          exact hspans ⟨start, finish, hfound, Int.not_lt.1 hle⟩

/-! ## Groups that count -/

/-- A last-level group that shows postings counts them, and so do its readings. -/
theorem Tree.Shows.counts_last {spec : Spec} {part : List (Posting × Decimal)} {t : Tree}
    (hvouchers : OfOneVoucherEach part) (h : t.Shows spec 0 (part.map spec.unit)) :
    t.children = [] ∧ t.fund.toRat = spec.number part ∧
      ∀ r ∈ t.readings, r.fund.toRat = spec.number
        (part.filter fun e => Series.notAfter e.1.date (dayRead spec.series r.date)) := by
  obtain ⟨hchildren, hreadings, hsums⟩ := h
  have hone : ∀ e ∈ part.map spec.unit, e.movement.2 = .one := List.forall_mem_map.2 fun _ _ => rfl
  have htakenOne : ∀ m ∈ (taken (part.map spec.unit)).map (·.movement), m.2 = .one :=
    List.forall_mem_map.2 fun e he => hone e ((taken_sublist _).subset he)
  obtain ⟨hfund, hlength⟩ := hsums.counted (List.forall_mem_map.2 hone)
  refine ⟨hchildren, by rw [hfund, length_taken_units], ?_⟩
  intro r hr
  have hsum := summable_ones (List.forall_mem_map.2 htakenOne) (by simpa using hlength)
  obtain ⟨readings, hread, hvalues⟩ := Group.readings_values hsum spec.series
  rw [hreadings] at hread
  cases hread
  have hmem := List.mem_map_of_mem (f := Reading.value) hr
  rw [hvalues] at hmem
  have hbalance : r.fund.toRat = _ := balance_of_mem_readingValues _ hmem
  -- the entries taken up to a day are those taken of the postings up to that day
  have hfilter := taken_filter (oneMovementEach_units spec hvouchers)
    fun m => Series.notAfter m.1 (dayRead spec.series r.date)
  rw [List.filter_map] at hfilter
  rw [hbalance, Series.balanceAt, valueWhere_ones htakenOne, List.filter_map, List.length_map]
  exact congrArg Nat.cast ((congrArg List.length hfilter).trans (length_taken_units _))

/-- A path leads to a group where things are counted if a posting has keys that begin with it. -/
theorem Tree.Shows.found_iff {spec : Spec} {entries : List (Posting × Decimal)} {tree : Tree}
    (h : tree.Shows spec spec.effectiveLevels.length (spec.entriesOf (ones entries)))
    (path : List Key) :
    (tree.descend? path).isSome = true ↔ path = [] ∨ ∃ e ∈ entries, path <+: spec.keysOf e.1 := by
  have hones : (∃ r ∈ ones entries, path <+: spec.keysOf r.1) ↔
      ∃ e ∈ entries, path <+: spec.keysOf e.1 := by
    simp [ones]
  by_cases hlength : path.length ≤ spec.effectiveLevels.length
  · rw [h.isSome_descend? hlength, withinPath_entriesOf_ne_nil, hones]
  · -- neither groups nor keys go that deep
    constructor
    · intro hsome
      obtain ⟨node, hnode⟩ := Option.isSome_iff_exists.1 hsome
      exact absurd (h.length_le hnode) hlength
    · rintro (rfl | ⟨e, -, hstart⟩)
      · exact absurd (Nat.zero_le _) hlength
      · exact absurd (spec.length_keysOf e.1 ▸ hstart.length_le) hlength

/-- A group above the last level is worth those right below it together. -/
theorem Tree.Shows.sum_children {spec : Spec} {levels : Nat} {es : List Entry} {t : Tree}
    (h : t.Shows spec levels es) (hlevels : levels ≠ 0) (hdepth : HaveDepth levels es)
    (hone : ∀ a ∈ amounts es, a = .one) :
    t.fund.toRat = (t.children.map (·.fund.toRat)).sum := by
  have hconserves := h.conserves hdepth (le_refl 0) (driftsBy_zero hone)
  rw [mul_zero, mul_zero, Tree.conserves_zero] at hconserves
  cases levels with
  | zero => exact absurd rfl hlevels
  | succ levels => exact hconserves.1

/-- Where things are counted, a tree that shows postings counts them. -/
theorem Tree.Shows.counts {spec : Spec} {entries : List (Posting × Decimal)} {tree : Tree}
    (hkey : tree.key = .root) (hvouchers : OfOneVoucherEach entries)
    (h : tree.Shows spec spec.effectiveLevels.length (spec.entriesOf (ones entries))) :
    tree.Counts spec entries := by
  refine ⟨hkey, h.found_iff, ?_, ?_, ?_, ?_⟩
  · intro path node hlength hnode
    have hkeys := h.children_keys hlength hnode
    rw [recordsAt_ones, ones, List.filterMap_map] at hkeys
    exact hkeys
  · intro path node hlength hnode
    have hshows := h.descend?_eq_some (Nat.le_of_eq hlength) hnode
    rw [hlength, Nat.sub_self, withinPath_ones hlength] at hshows
    refine hshows.counts_last ?_
    intro a ha b hb
    exact hvouchers a (List.mem_filter.1 ha).1 b (List.mem_filter.1 hb).1
  · intro hgather path node hnode
    have hsums := (h.descend?_eq_some (h.length_le hnode) hnode).sums
    obtain ⟨hfund, -⟩ := hsums.counted (amounts_withinPath_ones spec path entries)
    rw [hfund, taken_withinPath_entriesOf spec _ (by simp [hgather]), withinPath_entriesOf,
      recordsAt_ones, ones, List.length_map, List.length_map]
  · intro _ path node hlength hnode
    exact (h.descend?_eq_some (Nat.le_of_lt hlength) hnode).sum_children
      (Nat.sub_ne_zero_of_lt hlength) (.withinPath_entriesOf spec _ path)
      (amounts_withinPath_ones spec path entries)

/-! ## The subtotal -/

/-- Where things are counted, a subtotal consults no rates whatever the request is, so it fails only
    where a sum leaves the range, and never for fewer postings than the bound of the digits of an
    amount. It counts its postings or their vouchers, in the groups that the same request for sums
    of funds has, in the same order. -/
theorem ofPostings_counts (spec : Spec) (rates : RateLookup) (entries : List (Posting × Decimal))
    (hcount : spec.gather.isCount = true) (hvouchers : OfOneVoucherEach entries) :
    OnlyFails (· = .overflow) (ofPostings spec rates entries) ∧
      (∀ others, ofPostings spec others entries = ofPostings spec rates entries) ∧
      (entries.length < magnitudeBound → ∃ tree, ofPostings spec rates entries = .ok tree) ∧
      ∀ tree, ofPostings spec rates entries = .ok tree →
        tree.Counts spec entries ∧
        ∀ others plain, ofPostings (spec.gathering .all) others entries = .ok plain →
          ∀ path, (tree.descend? path).map (·.children.map (·.key)) =
            (plain.descend? path).map (·.children.map (·.key)) := by
  have hamount (rates : RateLookup) (p : Posting) (amount : Decimal) :
      spec.amountOf rates p amount = .ok .one := if_pos hcount
  have hkeep : spec.prunes = false := by
    have hgather : spec.gather ≠ .nonZero := by
      intro h
      rw [h] at hcount
      cases hcount
    simp [Spec.prunes, hgather]
  refine ⟨?_, ?_, ?_, ?_⟩
  · refine onlyFails_ofPostings_of (P := (· = .overflow)) rfl ?_ entries
    intro p amount
    rw [hamount]
    exact .ok Decimal.one
  · exact fun others => ofPostings_congr fun e _ => by rw [hamount, hamount]
  · intro hlength
    have hone : ∀ a ∈ (ones entries).map (·.2), a = .one :=
      List.forall_mem_map.2 (List.forall_mem_map.2 fun _ _ => rfl)
    have hsum : ExactlySummable ((ones entries).map (·.2)) :=
      ⟨0, summable_ones hone (by simpa [ones] using hlength)⟩
    obtain ⟨tree, htree, -⟩ := ofPostings_presents (convertAll_ones hcount rates entries) hsum
    exact ⟨tree, htree⟩
  · intro tree htree
    obtain ⟨root, records, hconvert, hkey, hholds, hfinish⟩ := Group.holds_of_ofPostings htree
    rw [convertAll_ones hcount] at hconvert
    cases hconvert
    obtain ⟨_, htree', htreeKey, hshows⟩ := hholds.finish hkeep hfinish
    cases htree'
    refine ⟨hshows.counts (htreeKey.trans hkey) hvouchers, ?_⟩
    intro others plain hplain path
    obtain ⟨root', records', hconvert', -, hholds', hfinish'⟩ := Group.holds_of_ofPostings hplain
    obtain ⟨_, hplain', -, hshows'⟩ := hholds'.finish spec.prunes_gathering_all hfinish'
    cases hplain'
    refine hshows.sameKeys hshows' ?_ path
    have hpostings := map_fst_convertAll hconvert'
    rw [← map_fst_convertAll (convertAll_ones hcount rates entries)] at hpostings
    rw [Spec.map_keys_entriesOf, Spec.map_keys_entriesOf, hpostings]
    rfl

/-- Servings on two bills that are equal, their details in turns and one of them twice. -/
def servings : List (Posting × Decimal) :=
  let bill := Voucher.dated ⟨2024, 3, 4, by decide⟩
  let serving (place detailPlace : Nat) (title : Int32) : Posting × Decimal :=
    (⟨bill, place, .ofTitle title (cents 250), detailPlace⟩, cents 250)
  [serving 0 0 6602, serving 1 0 6602, serving 0 1 6602, serving 0 2 1001, serving 0 0 6602]

/-- The bills by title, in a currency for which there are no rates. -/
def billsByTitle : Spec := ⟨some [.title], .voucherCount, .none, some ⟨"USD", none⟩⟩

/-- The first bill counts once for each of its titles, and the other one besides it. -/
theorem ofPostings_counts_servings :
    OfOneVoucherEach servings ∧
      ∃ tree, ofPostings billsByTitle (fun _ _ _ => none) servings = .ok tree ∧
        tree.Counts billsByTitle servings ∧
        tree.children.map (·.fund.toRat) = [2, 1] ∧ tree.fund.toRat = 3 := by
  have hvouchers : OfOneVoucherEach servings := by
    unfold OfOneVoucherEach
    decide
  obtain ⟨-, -, hexists, hcounts⟩ :=
    ofPostings_counts billsByTitle (fun _ _ _ => none) servings rfl hvouchers
  obtain ⟨tree, htree⟩ := hexists (by decide)
  refine ⟨hvouchers, tree, htree, (hcounts tree htree).1, ?_, ?_⟩
  · cases htree
    decide +kernel
  · cases htree
    decide +kernel

end Bookkeeping.Subtotal
