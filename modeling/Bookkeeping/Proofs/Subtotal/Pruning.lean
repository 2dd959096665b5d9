import Bookkeeping.Proofs.Subtotal.Selections
import Bookkeeping.Proofs.Subtotal.Worth

set_option autoImplicit false

/-! # Dropping groups that come to nothing

Groups are dropped while a subtotal is finished, from the last level up, and sums are taken again
on the way. What that comes to can be said of the finished subtotal in which nothing was dropped:
`Tree.survives` tells which of its groups are left, and `Tree.PrunedTo` what it looks like without
the others. A last-level group goes by its own sum, and any other one by whether something is left
right below it, never by its own sum: groups that cancel out do not take one another along. -/

namespace Bookkeeping.Subtotal

open Decimal (SummableAt ExactlySummable)

/-- The same request for another quantity. -/
def Spec.gathering (spec : Spec) (gather : Gather) : Spec := { spec with gather := gather }

theorem Spec.prunes_gathering_all (spec : Spec) : (spec.gathering .all).prunes = false := by
  simp [Spec.prunes, Spec.gathering]

theorem Spec.prunes_gathering_nonZero {spec : Spec} (hseries : spec.series ≠ .changedDay) :
    (spec.gathering .nonZero).prunes = true := by
  simp [Spec.prunes, Spec.gathering, hseries]

/-! ## Pruned subtotals -/

/-- Whatever stands in the second of two lists that are related one by one has its counterpart. -/
theorem exists_of_mem_right {α β : Type} {R : α → β → Prop} {l : List α} {others : List β}
    (h : List.Forall₂ R l others) {b : β} (hb : b ∈ others) : ∃ a ∈ l, R a b := by
  induction h with
  | nil => simp at hb
  | @cons a first _ _ hfirst _ ih =>
      rcases List.mem_cons.1 hb with rfl | hb
      · exact ⟨a, List.mem_cons_self, hfirst⟩
      · obtain ⟨origin, hmem, hR⟩ := ih hb
        exact ⟨origin, List.mem_cons_of_mem a hmem, hR⟩

namespace Tree

/-- Whether a group with so many levels below it is left: a last-level group that is not within
    the tolerance of zero, or a group above that with something left right below it. -/
def survives : Nat → Tree → Bool
  | 0, t => !decide (|t.fund.toRat| < 1 / 10 ^ 6)
  | levels + 1, t => t.children.any (survives levels)

/-- What is left of a group with so many levels below it: the groups right below it that survive,
    in their order, each with what is left of it, and their sum. Key and readings stay, and a
    last-level group stays as it is. -/
def PrunedTo : Nat → Tree → Tree → Prop
  | 0, t, left => left = t
  | levels + 1, t, left =>
      left.key = t.key ∧ left.readings = t.readings ∧
        Decimal.checkedSum (left.children.map (·.fund)) = .ok left.fund ∧
        left.fund.toRat = (left.children.map (·.fund.toRat)).sum ∧
        List.Forall₂ (PrunedTo levels) (t.children.filter (survives levels)) left.children

variable {levels : Nat} {t left : Tree}

/-- What is left of a group that survives is not nothing. -/
theorem PrunedTo.of_survives (h : t.PrunedTo levels left) (hleft : t.survives levels = true) :
    (levels = 0 → 1 / 10 ^ 6 ≤ |left.fund.toRat|) ∧ (0 < levels → left.children ≠ []) := by
  cases levels with
  | zero =>
      cases h
      exact ⟨fun _ => by simpa [survives] using hleft, fun hlt => absurd hlt (Nat.lt_irrefl 0)⟩
  | succ levels =>
      refine ⟨fun hzero => absurd hzero (Nat.succ_ne_zero levels), fun _ hnil => ?_⟩
      obtain ⟨-, -, -, -, hchildren⟩ := h
      rw [hnil, List.forall₂_nil_right_iff, List.filter_eq_nil_iff] at hchildren
      obtain ⟨child, hchild, hsurvives⟩ := List.any_eq_true.1 hleft
      exact hchildren child hchild hsurvives

/-- Below the group of everything nothing is left that has come to nothing: groups of the last
    level are worth something, and there is something below all others. -/
theorem PrunedTo.below {node : Tree} {path : List Key} (h : t.PrunedTo levels left)
    (hpath : path ≠ []) (hnode : left.descend? path = some node) :
    (path.length = levels → 1 / 10 ^ 6 ≤ |node.fund.toRat|) ∧
      (path.length < levels → node.children ≠ []) := by
  induction path generalizing levels t left with
  | nil => exact absurd rfl hpath
  | cons key rest ih =>
      cases levels with
      | zero => simp
      | succ levels =>
          obtain ⟨-, -, -, -, hchildren⟩ := h
          obtain ⟨child, hchild, hrest⟩ := Option.bind_eq_some_iff.1 hnode
          obtain ⟨origin, horigin, hpruned⟩ :=
            exists_of_mem_right hchildren (List.mem_of_find?_eq_some hchild)
          simp only [List.length_cons, Nat.add_right_cancel_iff, Nat.add_lt_add_iff_right]
          by_cases hend : rest = []
          · subst hend
            cases hrest
            obtain ⟨hworth, hbelow⟩ := hpruned.of_survives (List.mem_filter.1 horigin).2
            exact ⟨fun hlast => hworth hlast.symm, hbelow⟩
          · exact ih hpruned hend hrest

end Tree

/-! ## Finishing either way -/

namespace Group

variable {spec : Spec} {levels : Nat} {es : List Entry} {g : Group}

/-- A group whose entries add up exactly is finished as a group that surely stays, or it is
    dropped where nothing of that is left. -/
theorem Holds.finish_pruned_fund {s : Nat} (isRoot : Bool) (h : g.Holds (levels + 1) es)
    (hdepth : HaveDepth (levels + 1) es) (hsum : SummableAt s (amounts (taken es)))
    (hprunes : spec.prunes = true) {children : List Tree}
    (hchildren : g.children.filterMapM (Group.finish spec false levels) = .ok children) :
    ∃ fund : Decimal, Decimal.checkedSum (children.map (·.fund)) = .ok fund ∧
      fund.toRat = (children.map (·.fund.toRat)).sum ∧
      g.finish spec isRoot (levels + 1) =
        .ok (if isRoot || !children.isEmpty then some ⟨g.key, fund, children, []⟩ else none) := by
  -- the group of everything is never dropped, so it tells what the sum is in either case
  obtain ⟨t, -, hpresents, hfinish⟩ : ∃ t : Tree, t.key = g.key ∧
      t.Presents spec (levels + 1) es ∧ g.finish spec true (levels + 1) = .ok (some t) :=
    h.finish_presents hdepth hsum
  obtain ⟨fund, found, rfl, hfound, -, hfund⟩ := finish_succ_eq_some hfinish
  rw [hchildren] at hfound
  cases hfound
  obtain ⟨-, hvalue, hkeys, hbelow⟩ := hpresents
  refine ⟨fund, hfund hprunes, ?_, ?_⟩
  · rw [hvalue, Spec.worth, ← hkeys, List.map_map]
    exact congrArg List.sum (List.map_congr_left fun child hchild =>
      (hbelow child hchild).fund_eq.symm)
  · rw [Group.finish, hchildren, ok_bind, hprunes, hfund hprunes]
    cases isRoot <;> cases children.isEmpty <;> rfl

/-- Where groups are dropped, a group is finished as what is left of it, and it is dropped itself
    if it does not survive. -/
theorem Holds.finish_gathering {s : Nat} (isRoot : Bool) (hseries : spec.series ≠ .changedDay)
    (h : g.Holds levels es) (hdepth : HaveDepth levels es)
    (hsum : SummableAt s (amounts (taken es))) :
    ∃ t left : Tree, t.PrunedTo levels left ∧
      g.finish (spec.gathering .all) isRoot levels = .ok (some t) ∧
      g.finish (spec.gathering .nonZero) isRoot levels =
        .ok (if isRoot || t.survives levels then some left else none) := by
  have hprunes := Spec.prunes_gathering_nonZero hseries
  induction levels generalizing es g isRoot with
  | zero =>
      obtain ⟨-, hmovements, -, hsums⟩ := h
      have hread : SummableAt s (g.movements.map (·.2)) := by
        rw [hmovements, List.map_map]
        exact hsum
      obtain ⟨readings, hreadings, -⟩ := readings_values hread spec.series
      have hnegligible : g.fund.isNegligible = decide (|g.fund.toRat| < 1 / 10 ^ 6) := by
        rw [Bool.eq_iff_iff, Decimal.isNegligible_iff, decide_eq_true_iff]
      refine ⟨⟨g.key, g.fund, [], readings⟩, _, rfl, ?_, ?_⟩
      · rw [Group.finish, Spec.prunes_gathering_all]
        exact bind_eq_ok.2 ⟨readings, hreadings, rfl⟩
      · have hreadings : Group.readings (spec.gathering .nonZero).series g.movements =
            .ok readings := hreadings
        rw [Group.finish, hprunes, hnegligible, hreadings, ok_bind, Tree.survives]
        cases isRoot <;> cases decide (|g.fund.toRat| < 1 / 10 ^ 6) <;> rfl
  | succ levels ih =>
      have hbelow : ∀ child ∈ g.children, ∃ t left : Tree, t.PrunedTo levels left ∧
          child.finish (spec.gathering .all) false levels = .ok (some t) ∧
          child.finish (spec.gathering .nonZero) false levels =
            .ok (if t.survives levels then some left else none) := by
        intro child hchild
        exact ih false (h.1.holds child hchild) (hdepth.within child.key)
          (hsum.sublist (amounts_taken_within_sublist child.key es))
      obtain ⟨all, kept, hall, hkept, hpruned⟩ := filterMapM_forall₂ hbelow
      obtain ⟨fund, hfund, hvalue, hfinish⟩ := h.finish_pruned_fund isRoot hdepth hsum hprunes hkept
      have hsurvives : (!kept.isEmpty) = all.any (Tree.survives levels) := by
        rw [Bool.eq_iff_iff, Bool.not_eq_true', List.isEmpty_eq_false_iff,
          ← List.length_pos_iff_ne_nil, ← hpruned.length_eq, List.length_filter_pos_iff,
          List.any_eq_true]
      refine ⟨⟨g.key, g.fund, all, []⟩, ⟨g.key, fund, kept, []⟩, ⟨rfl, rfl, hfund, hvalue, hpruned⟩,
        ?_, ?_⟩
      · rw [Group.finish, hall, ok_bind, Spec.prunes_gathering_all]
        cases isRoot <;> rfl
      · rw [hfinish, hsurvives, Tree.survives]

end Group

/-! ## The subtotal -/

/-- Where amounts convert and add up exactly, a subtotal without the groups that come to nothing is
    the subtotal with them, pruned: its groups are those that survive, with the same keys and
    readings in the same order, and above the last level with the sum of what is left right below.
    The group of everything always stays. So below it no last-level group comes to nothing and no
    other group is empty. Where the days on which balances changed are read, nothing is dropped. -/
theorem ofPostings_nonZero_prunes (spec : Spec) (rates : RateLookup)
    (entries records : List (Posting × Decimal))
    (hconvert : (spec.gathering .all).convertAll rates entries = .ok records)
    (hsum : ExactlySummable (records.map (·.2))) :
    ∃ tree left, ofPostings (spec.gathering .all) rates entries = .ok tree ∧
      ofPostings (spec.gathering .nonZero) rates entries = .ok left ∧
      (spec.series = .changedDay → left = tree) ∧
      (spec.series ≠ .changedDay →
        tree.PrunedTo spec.effectiveLevels.length left ∧
        ∀ (path : List Key) (node : Tree), path ≠ [] → left.descend? path = some node →
          (path.length = spec.effectiveLevels.length → 1 / 10 ^ 6 ≤ |node.fund.toRat|) ∧
          (path.length < spec.effectiveLevels.length → node.children ≠ [])) := by
  obtain ⟨all, hall, -, hholds⟩ := enterAll_summable hconvert hsum
  -- what is entered does not depend on whether groups are dropped later
  have hall' : entries.foldlM (enterPosting (spec.gathering .nonZero) rates) .empty = .ok all :=
    hall
  have hdepth := HaveDepth.entriesOf (spec.gathering .all) records
  rw [← amounts_entriesOf (spec.gathering .all)] at hsum
  obtain ⟨s, hsum⟩ := hsum
  have htaken := hsum.sublist (amounts_taken_sublist _)
  by_cases hseries : spec.series = .changedDay
  · obtain ⟨tree, -, -, hfinish⟩ : ∃ tree : Tree, tree.key = all.root.key ∧
        tree.Presents (spec.gathering .all) spec.effectiveLevels.length
          ((spec.gathering .all).entriesOf records) ∧
        all.root.finish (spec.gathering .all) true spec.effectiveLevels.length = .ok (some tree) :=
      hholds.finish_presents hdepth htaken
    have hkeep : (spec.gathering .nonZero).prunes = (spec.gathering .all).prunes := by
      simp [Spec.prunes, Spec.gathering, hseries]
    have hfinish' : all.root.finish (spec.gathering .nonZero) true spec.effectiveLevels.length =
        .ok (some tree) := (Group.finish_congr hkeep rfl true all.root).trans hfinish
    exact ⟨tree, tree, ofPostings_eq_ok hall hfinish, ofPostings_eq_ok hall' hfinish',
      fun _ => rfl, fun hother => absurd hseries hother⟩
  · obtain ⟨tree, left, hpruned, hfinish, hfinish'⟩ :=
      hholds.finish_gathering true hseries hdepth htaken
    exact ⟨tree, left, ofPostings_eq_ok hall hfinish, ofPostings_eq_ok hall' hfinish',
      fun hchanged => absurd hchanged hseries,
      fun _ => ⟨hpruned, fun path node hpath hnode => hpruned.below hpath hnode⟩⟩

/-- A bill that is paid back on the same day, and the cash that was left. -/
def refund : List (Posting × Decimal) :=
  let voucher := Voucher.dated ⟨2024, 3, 1, by decide⟩
  [(⟨voucher, 0, .ofTitle 6602 (cents 250), 0⟩, cents 250),
    (⟨voucher, 0, .ofTitle 6602 (cents (-250)), 1⟩, cents (-250)),
    (⟨voucher, 0, .ofTitle 1001 (cents 900), 2⟩, cents 900)]

theorem ofPostings_nonZero_prunes_refund :
    ∃ tree left,
      ofPostings (.ofLevels [.title, .date .month]) (fun _ _ _ => none) refund = .ok tree ∧
      ofPostings ((Spec.ofLevels [.title, .date .month]).gathering .nonZero) (fun _ _ _ => none)
        refund = .ok left ∧
      tree.PrunedTo 2 left ∧ tree.children.map (·.key) = [.title 6602, .title 1001] ∧
      left.children.map (·.key) = [.title 1001] := by
  have hsum : ExactlySummable (refund.map (·.2)) :=
    ⟨2, .of_scale_le (by decide) (by decide) (by decide +kernel)⟩
  obtain ⟨tree, left, htree, hleft, -, hpruned⟩ := ofPostings_nonZero_prunes
    (.ofLevels [.title, .date .month]) (fun _ _ _ => none) refund refund rfl hsum
  refine ⟨tree, left, htree, hleft, (hpruned (by decide)).1, ?_, ?_⟩
  · cases htree
    rfl
  · cases hleft
    rfl

end Bookkeeping.Subtotal
