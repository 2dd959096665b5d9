import Bookkeeping.Proofs.Decimal.ExactSum
import Bookkeeping.Proofs.Subtotal.Finishing

set_option autoImplicit false

/-! # A subtotal is a group-by

Read off a subtotal where amounts add up exactly and no groups are dropped: a path of keys leads
to a group if some record has keys that begin with it, the group's sum is that of these records,
the groups right below it stand in the order in which the records come up with their keys, and a
last-level group has the running balance of its records. -/

namespace Bookkeeping.Subtotal

open Decimal (ExactlySummable)

/-- The records whose keys begin with a path. -/
def Spec.recordsAt (spec : Spec) (path : List Key) (records : List (Posting × Decimal)) :
    List (Posting × Decimal) :=
  records.filter fun r => path.isPrefixOf (spec.keysOf r.1)

/-- What a tree has to be to group records, whose amounts are those that are added up. -/
structure Tree.Groups (spec : Spec) (records : List (Posting × Decimal)) (tree : Tree) : Prop where
  key_eq : tree.key = .root
  /-- The groups are those that some record belongs to, and the group of everything. -/
  found : ∀ path : List Key, path.length ≤ spec.effectiveLevels.length →
    ((tree.descend? path).isSome = true ↔ path = [] ∨ ∃ r ∈ records, path <+: spec.keysOf r.1)
  fund_eq : ∀ (path : List Key) (node : Tree), path.length ≤ spec.effectiveLevels.length →
    tree.descend? path = some node →
      node.fund.toRat = ((spec.recordsAt path records).map (·.2.toRat)).sum
  /-- The groups right below a group have different keys, in the order of their first records. -/
  children_eq : ∀ (path : List Key) (node : Tree), path.length < spec.effectiveLevels.length →
    tree.descend? path = some node →
      node.children.map (·.key) = ((spec.recordsAt path records).filterMap fun r =>
        (spec.keysOf r.1)[path.length]?).eraseDups ∧
      (node.children.map (·.key)).Nodup ∧ node.readings = []
  /-- A last-level group has the running balance of its own records and nothing below it. -/
  last : ∀ (path : List Key) (node : Tree), path.length = spec.effectiveLevels.length →
    tree.descend? path = some node →
      node.children = [] ∧ Group.readings spec.series
        ((spec.recordsAt path records).map fun r => (r.1.date, r.2)) = .ok node.readings

/-! ## Records as entries -/

section Entries

variable (spec : Spec) (records : List (Posting × Decimal))

theorem amounts_entriesOf : amounts (spec.entriesOf records) = records.map (·.2) := by
  rw [amounts, Spec.entriesOf, List.map_map]
  rfl

theorem withinPath_entriesOf (path : List Key) :
    withinPath path (spec.entriesOf records) = (spec.recordsAt path records).map fun r =>
      { spec.entryOf r.1 r.2 with keys := (spec.keysOf r.1).drop path.length } := by
  rw [withinPath_eq, Spec.entriesOf, List.filter_map, List.map_map]
  rfl

/-- Where vouchers are not counted, every entry is taken. -/
theorem taken_withinPath_entriesOf (hvouchers : spec.gather ≠ .voucherCount) (path : List Key) :
    taken (withinPath path (spec.entriesOf records)) =
      withinPath path (spec.entriesOf records) := by
  refine taken_eq_self ?_
  intro e he
  rw [withinPath_entriesOf] at he
  obtain ⟨r, _, rfl⟩ := List.mem_map.1 he
  exact if_neg hvouchers

theorem withinPath_entriesOf_ne_nil (path : List Key) :
    withinPath path (spec.entriesOf records) ≠ [] ↔
      ∃ r ∈ records, path <+: spec.keysOf r.1 := by
  rw [withinPath_entriesOf, Ne, List.map_eq_nil_iff, Spec.recordsAt, List.filter_eq_nil_iff]
  simp

end Entries

/-! ## The subtotal -/

/-- The groups right below a group have different keys, in the order of their first records. -/
theorem Tree.Shows.children_keys {spec : Spec} {records : List (Posting × Decimal)} {tree : Tree}
    (h : tree.Shows spec spec.effectiveLevels.length (spec.entriesOf records)) {path : List Key}
    {node : Tree} (hlength : path.length < spec.effectiveLevels.length)
    (hnode : tree.descend? path = some node) :
    node.children.map (·.key) = ((spec.recordsAt path records).filterMap fun r =>
      (spec.keysOf r.1)[path.length]?).eraseDups ∧
    (node.children.map (·.key)).Nodup ∧ node.readings = [] := by
  have hshows := h.descend?_eq_some (Nat.le_of_lt hlength) hnode
  obtain ⟨levels, hlevels⟩ : ∃ n, spec.effectiveLevels.length - path.length = n + 1 :=
    ⟨_, (Nat.succ_pred_eq_of_pos (Nat.sub_pos_of_lt hlength)).symm⟩
  rw [hlevels] at hshows
  obtain ⟨hreadings, hkeys, _, _⟩ := hshows
  refine ⟨?_, hkeys ▸ nodup_firstKeys _, hreadings⟩
  rw [hkeys, firstKeys, withinPath_entriesOf, List.filterMap_map]
  congr 1
  refine List.filterMap_congr fun r _ => ?_
  exact List.head?_drop

theorem Tree.Shows.groups {spec : Spec} {records : List (Posting × Decimal)} {tree : Tree}
    (hkey : tree.key = .root) (hvouchers : spec.gather ≠ .voucherCount)
    (hsum : ExactlySummable (records.map (·.2)))
    (h : tree.Shows spec spec.effectiveLevels.length (spec.entriesOf records)) :
    tree.Groups spec records := by
  refine ⟨hkey, ?_, ?_, ?_, ?_⟩
  · intro path hlength
    rw [h.isSome_descend? hlength, withinPath_entriesOf_ne_nil]
  · intro path node hlength hnode
    have hsums := (h.descend?_eq_some hlength hnode).sums
    have hamounts : amounts (withinPath path (spec.entriesOf records)) =
        (spec.recordsAt path records).map (·.2) := by
      rw [withinPath_entriesOf, amounts, List.map_map]
      rfl
    rw [Sums, taken_withinPath_entriesOf spec records hvouchers, hamounts] at hsums
    have hpart : ExactlySummable ((spec.recordsAt path records).map (·.2)) :=
      hsum.subperm (List.filter_sublist.map _).subperm
    obtain ⟨fund, hfund, hvalue⟩ := hpart.checkedSum
    rw [hfund] at hsums
    cases hsums
    rw [hvalue, List.map_map]
    rfl
  · exact fun path node hlength hnode => h.children_keys hlength hnode
  · intro path node hlength hnode
    have hshows := h.descend?_eq_some (Nat.le_of_eq hlength) hnode
    rw [hlength, Nat.sub_self] at hshows
    obtain ⟨hchildren, hreadings, _⟩ := hshows
    refine ⟨hchildren, ?_⟩
    rw [taken_withinPath_entriesOf spec records hvouchers, withinPath_entriesOf,
      List.map_map] at hreadings
    exact hreadings

/-- Where no groups are dropped and vouchers are not counted, the subtotal of postings whose
    amounts convert and then add up exactly exists, and it is their grouping. -/
theorem ofPostings_groups (spec : Spec) (rates : RateLookup)
    (entries records : List (Posting × Decimal))
    (hgather : spec.gather = .all ∨ spec.gather = .nonZero ∧ spec.series = .changedDay)
    (hconvert : spec.convertAll rates entries = .ok records)
    (hsum : ExactlySummable (records.map (·.2))) :
    ∃ tree, ofPostings spec rates entries = .ok tree ∧ tree.Groups spec records := by
  have hkeep : spec.prunes = false := by
    rcases hgather with hall | ⟨_, hchanged⟩
    · simp [Spec.prunes, hall]
    · simp [Spec.prunes, hchanged]
  have hvouchers : spec.gather ≠ .voucherCount := by
    rcases hgather with hall | ⟨hnonZero, _⟩
    · simp [hall]
    · simp [hnonZero]
  have hamounts := amounts_entriesOf spec records
  have hadds : Decimal.Adds (amounts ([] ++ spec.entriesOf records)) := by
    rw [List.nil_append, hamounts]
    exact hsum.adds
  -- entering and reading succeed because the sums exist; what they give is shown after that
  obtain ⟨all, hall⟩ := enterAll_ok (Grouping.holds_empty _) hconvert hadds
  obtain ⟨records', hrecords', hkey, hholds⟩ := holds_enterAll (Grouping.holds_empty _) hall
  rw [hconvert] at hrecords'
  cases hrecords'
  rw [List.nil_append] at hholds
  have hread : ∀ part : List Movement, (part.map (·.2)).Sublist (amounts (spec.entriesOf records)) →
      ∃ readings, Group.readings spec.series part = .ok readings := by
    intro part hpart
    rw [hamounts] at hpart
    refine Group.readings_ok ?_ spec.series
    have hbyDate := (Series.byDate_perm part).map (·.2)
    exact (hsum.subperm (hbyDate.subperm.trans hpart.subperm)).adds
  obtain ⟨tree?, hfinish⟩ :
      ∃ tree?, all.root.finish spec true spec.effectiveLevels.length = .ok tree? :=
    hholds.finish_ok hkeep hread
  obtain ⟨tree, rfl, htreeKey, hshows⟩ := hholds.finish hkeep hfinish
  refine ⟨tree, ?_, hshows.groups (htreeKey.trans hkey) hvouchers hsum⟩
  unfold ofPostings
  rw [hall, ok_bind, hfinish]
  rfl

/-- An amount of cents. -/
def cents (n : Int) : Decimal := (Decimal.ofParts? n 2).getD .zero

/-- A purchase paid in cash, and a bill later in that month. -/
def purchases : List (Posting × Decimal) :=
  let first := Voucher.dated ⟨2024, 1, 3, by decide⟩
  let second := Voucher.dated ⟨2024, 1, 20, by decide⟩
  [(⟨first, 0, .ofTitle 1001 (cents (-250)), 0⟩, cents (-250)),
    (⟨first, 0, .ofTitle 6602 (cents 250), 1⟩, cents 250),
    (⟨second, 1, .ofTitle 6602 (cents 1000), 0⟩, cents 1000)]

/-- The same purchases in a currency of which twice as much is needed. -/
def purchasesInDollars : List (Posting × Decimal) :=
  List.zipWith (fun entry amount => (entry.1, amount)) purchases
    [cents (-500), cents 500, cents 2000]

/-- Running balances in that currency, by title and month. -/
def dollarsByMonth : Spec :=
  ⟨some [.title, .date .month], .nonZero, .changedDay, some ⟨"USD", none⟩⟩

theorem ofPostings_groups_purchases :
    ∃ tree, ofPostings dollarsByMonth (fun _ _ _ => Decimal.ofParts? 2 0) purchases = .ok tree ∧
      tree.Groups dollarsByMonth purchasesInDollars := by
  refine ofPostings_groups dollarsByMonth _ purchases purchasesInDollars (.inr ⟨rfl, rfl⟩) rfl ?_
  have hcents : (cents (-500)).toRat = -5 ∧ (cents 500).toRat = 5 ∧ (cents 2000).toRat = 20 := by
    refine ⟨?_, ?_, ?_⟩
    · show mkRat (-500) 100 = -5
      norm_num [Rat.mkRat_eq_div]
    · show mkRat 500 100 = 5
      norm_num [Rat.mkRat_eq_div]
    · show mkRat 2000 100 = 20
      norm_num [Rat.mkRat_eq_div]
  obtain ⟨hcash, hlunch, hbill⟩ := hcents
  refine ⟨0, by decide, ?_, ?_⟩
  · intro a ha
    simp only [purchasesInDollars, purchases, List.zipWith, List.map_cons, List.map_nil,
      List.mem_cons, List.not_mem_nil, or_false] at ha
    rcases ha with rfl | rfl | rfl
    · exact ⟨-5, by rw [hcash]; norm_num⟩
    · exact ⟨5, by rw [hlunch]; norm_num⟩
    · exact ⟨20, by rw [hbill]; norm_num⟩
  · simp only [purchasesInDollars, purchases, List.zipWith, List.map_cons, List.map_nil,
      List.sum_cons, List.sum_nil, hcash, hlunch, hbill]
    norm_num

end Bookkeeping.Subtotal
