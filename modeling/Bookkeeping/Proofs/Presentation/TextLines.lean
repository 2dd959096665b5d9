import Bookkeeping.Presentation.Text
import Bookkeeping.Proofs.Presentation.SiblingOrder
import Bookkeeping.Proofs.Subtotal.GroupBy
import Bookkeeping.Proofs.Subtotal.Preorder

set_option autoImplicit false

/-! # The lines of a subtotal

The text of a subtotal has one line for each group, in preorder, and those of the readings of a
last-level group right behind it. What a line says depends on the group and its place only, not on
how the walk got there: `lineAt` finds the level, the indentation and the title nearest above in
the keys on the way down. The walk carries the depth, the level and that title along instead, and
`IsAt` says that it carries the right ones. -/

namespace Bookkeeping

open Subtotal (Key Level Spec Tree Visit)

/-- The title that a key stands for. -/
def Subtotal.Key.title? : Key → Option Int32
  | title t => some t
  | _ => none

namespace Presentation

/-! ## Lines by their places -/

/-- The name of the account that a key stands for, from the keys above it, the nearest first: a
    sub-title is named under the first title among them, and not at all without one. -/
def nameUnder (names : AccountNames) (above : List Key) : Key → Option String
  | .title t => names ⟨t, none⟩
  | .subTitle (some n) => (above.findSome? Key.title?).bind fun t => names ⟨t, some n⟩
  | _ => none

/-- The line of a group at a place below these levels. -/
def lineAt (names : AccountNames) (levels : List Level) (path : List Key) (t : Tree) : String :=
  match path.reverse with
  | [] => t.fund.fundText
  | key :: above =>
      let granularity := (levels[above.length]?.bind Level.granularity?).getD .day
      let name := (nameUnder names above key).elim "" (" " ++ ·)
      tabs above.length ++ key.label granularity ++ name ++ "\t" ++ t.fund.fundText

/-- The lines of the readings of a group at a place. Only the last level has readings, and only in
    a running balance. -/
def readingLinesAt (spec : Spec) (path : List Key) (t : Tree) : List String :=
  match spec.series.interval? with
  | some g =>
      if path.length = spec.effectiveLevels.length then
        t.readings.map fun r => tabs path.length ++ g.label r.date ++ "\t" ++ r.fund.fundText
      else []
  | none => []

/-- The lines of a group at a place. -/
def linesAt (names : AccountNames) (spec : Spec) (path : List Key) (t : Tree) : List String :=
  lineAt names spec.effectiveLevels path t :: readingLinesAt spec path t

/-! ## Lines of a walk -/

/-- Whether a visit is that of the group where a walk has come down through these levels, with the
    keys on the way back up from it. -/
structure IsAt (passed : List Level) (trail : List Key) (v : Visit) : Prop where
  depth : v.depth = trail.length
  level : v.level = passed.getLast?
  key : ∀ key ∈ trail.head?, key = v.tree.key
  length_passed : passed.length = trail.length

variable {names : AccountNames} {passed rest : List Level} {trail : List Key} {v : Visit}

/-- The title that the walk carries along is the nearest one. -/
theorem titleBelow_nearest (trail : List Key) (key : Key) :
    titleBelow (trail.findSome? Key.title?) key = (key :: trail).findSome? Key.title? := by
  cases key <;> rfl

theorem accountName?_nearest (names : AccountNames) (above : List Key) (key : Key) :
    accountName? names ((key :: above).findSome? Key.title?) key = nameUnder names above key := by
  cases key with
  | subTitle number => cases number <;> rfl
  | _ => rfl

theorem groupLine_eq_lineAt (names : AccountNames) {levels : List Level}
    (hlevels : levels = passed ++ rest) (h : IsAt passed trail v) :
    groupLine names (trail.findSome? Key.title?) v =
      lineAt names levels trail.reverse v.tree := by
  obtain ⟨hdepth, hlevel, hkey, hlength⟩ := h
  unfold groupLine lineAt
  rw [List.reverse_reverse]
  cases trail with
  | nil => exact if_pos hdepth
  | cons key above =>
      have hlast : levels[above.length]? = v.level := by
        rw [hlevels, hlevel, List.getLast?_eq_getElem?, hlength, List.length_cons,
          Nat.add_sub_cancel]
        exact List.getElem?_append_left (by rw [hlength]; exact Nat.lt_succ_self _)
      have hdeep : v.depth ≠ 0 := by
        rw [hdepth]
        exact Nat.succ_ne_zero _
      have hsame : v.tree.key = key := (hkey key rfl).symm
      dsimp only
      rw [if_neg hdeep, Visit.label, hsame, accountName?_nearest, hdepth, hlast, List.length_cons,
        Nat.add_sub_cancel]

theorem readingLinesAt_of_last {spec : Spec} (hlevels : spec.effectiveLevels = passed)
    (h : IsAt passed trail v) :
    readingLinesAt spec trail.reverse v.tree =
      spec.series.interval?.elim [] fun g => v.tree.readings.map fun r => readingLine v r g := by
  have hlast : trail.reverse.length = spec.effectiveLevels.length := by
    rw [List.length_reverse, hlevels, h.length_passed]
  unfold readingLinesAt
  cases spec.series.interval? with
  | none => rfl
  | some g =>
      dsimp only
      rw [if_pos hlast, List.length_reverse, ← h.depth]
      rfl

theorem readingLinesAt_of_not_last {spec : Spec} {level : Level}
    (hlevels : spec.effectiveLevels = passed ++ level :: rest) (h : IsAt passed trail v) :
    readingLinesAt spec trail.reverse v.tree = [] := by
  have habove : trail.reverse.length ≠ spec.effectiveLevels.length := by
    rw [List.length_reverse, hlevels, List.length_append, h.length_passed, List.length_cons]
    omega
  unfold readingLinesAt
  cases spec.series.interval? with
  | none => rfl
  | some g => exact if_neg habove

theorem IsAt.child (h : IsAt passed trail v) (level : Level) (child : Tree)
    (below : Subtotal.Below) :
    IsAt (passed ++ [level]) (child.key :: trail) ⟨child, v.depth + 1, some level, below⟩ where
  depth := by rw [List.length_cons, ← h.depth]
  level := by simp
  key := by simp
  length_passed := by simp [h.length_passed]

/-- From every group on, the walk writes the lines of the groups at and below it in preorder. -/
theorem runFrom_textWalk {s : Presentation} {spec : Spec}
    (hlevels : spec.effectiveLevels = passed ++ rest) (h : IsAt passed trail v) :
    (s.textWalk names).runFrom spec.series.interval? rest (trail.findSome? Key.title?) v =
      (v.tree.inPreorder s.compareKeys rest.length).flatMap fun (path, t) =>
        linesAt names spec (trail.reverse ++ path) t := by
  -- the walk goes down one level at a time, and the key of the child joins the trail
  induction rest generalizing passed trail v with
  | nil =>
      have hline := groupLine_eq_lineAt names hlevels h
      have hreadings := readingLinesAt_of_last (hlevels.trans (List.append_nil _)) h
      rw [List.length_nil, Tree.inPreorder, List.flatMap_singleton]
      dsimp only
      rw [List.append_nil, linesAt, hreadings, ← hline]
      cases spec.series.interval? with
      | none => rfl
      | some g =>
          have hlines : (v.tree.readings.map fun r => [readingLine v r g]).flatten =
              v.tree.readings.map fun r => readingLine v r g := by
            rw [← List.flatMap_def, ← List.map_eq_flatMap]
          rw [Subtotal.Walk.runFrom_readings, Option.elim_some, ← hlines]
          rfl
  | cons level rest ih =>
      have hline := groupLine_eq_lineAt names hlevels h
      have hreadings := readingLinesAt_of_not_last hlevels h
      rw [Subtotal.Walk.runFrom_cons, List.length_cons, Tree.inPreorder, List.flatMap_cons]
      dsimp only
      rw [List.append_nil, linesAt, hreadings, ← hline, List.flatMap_assoc]
      have hchild (child : Tree) :
          (s.textWalk names).ofChild spec.series.interval? level rest
              (trail.findSome? Key.title?) v.depth child =
            ((child.inPreorder s.compareKeys rest.length).map fun (path, t) =>
              (child.key :: path, t)).flatMap fun (path, t) =>
                linesAt names spec (trail.reverse ++ path) t := by
        have hbelow := ih (hlevels.trans (List.append_cons passed level rest))
          (h.child level child (Subtotal.below rest spec.series.interval?))
        rw [← titleBelow_nearest, List.reverse_cons] at hbelow
        simp only [List.append_assoc, List.singleton_append] at hbelow
        rw [List.flatMap_map]
        exact hbelow
      simp only [← hchild]
      rfl

/-- The lines of a subtotal, with texts by code point, are those of its groups at their places: of
    each group once, parents before the groups below them and siblings in strictly ascending
    order. -/
theorem textLines_in_preorder {s : Presentation} (hcollation : s.collation = compare)
    (names : AccountNames) {spec : Spec} {rates : RateLookup} {entries : List (Posting × Decimal)}
    {tree : Tree} (h : Subtotal.ofPostings spec rates entries = .ok tree) :
    (∀ a b, s.compareKeys a b = .lt ↔ s.Precedes a b) ∧
      ∃ nodes : List (List Key × Tree),
        (∀ path node, (path, node) ∈ nodes ↔ tree.HasAt path node) ∧
        (nodes.Pairwise fun a b => List.Lex s.Precedes a.1 b.1) ∧
        s.textLines names spec tree = nodes.flatMap fun (path, node) =>
          linesAt names spec path node := by
  have horder := compareKeys_eq_lt_iff hcollation
  have hformed := Subtotal.wellFormed_ofPostings h
  refine ⟨horder, tree.inPreorder s.compareKeys spec.effectiveLevels.length,
    fun path node => Tree.mem_inPreorder_iff hformed, ?_, ?_⟩
  · have hlawful : Std.TransCmp s.collation ∧ Std.LawfulEqCmp s.collation := by
      rw [hcollation]
      exact ⟨inferInstance, inferInstance⟩
    obtain ⟨_, _⟩ := hlawful
    have hprecedes : (s.compareKeys · · = .lt) = s.Precedes :=
      funext fun a => funext fun b => propext (horder a b)
    rw [← hprecedes]
    exact Tree.inPreorder_ascending hformed.distinctSiblings
  · have hroot : IsAt [] [] ⟨tree, 0, none, Subtotal.below spec.effectiveLevels
        spec.series.interval?⟩ := ⟨rfl, rfl, by simp, rfl⟩
    exact runFrom_textWalk rfl hroot

/-- Three units on the first account under a title. -/
def deposit : List (Posting × Decimal) :=
  let detail := { Detail.ofTitle 1002 (Subtotal.cents 300) with subTitle := some 1 }
  let voucher := { Voucher.undated with details := [detail] }
  (voucher.postings 0).map fun p => (p, p.detail.fund)

/-- The names of that title and of the account. -/
def depositNames : AccountNames
  | ⟨1002, none⟩ => some "Bank"
  | ⟨1002, some 1⟩ => some "Checking"
  | _ => none

/-- The account is named under the title above it. -/
theorem textLines_in_preorder_deposit :
    ∃ tree,
      Subtotal.ofPostings (.ofLevels [.title, .subTitle]) (fun _ _ _ => none) deposit = .ok tree ∧
      "1002 Bank\t3" ∈ standard.textLines depositNames (.ofLevels [.title, .subTitle]) tree ∧
      "\t01 Checking\t3" ∈
        standard.textLines depositNames (.ofLevels [.title, .subTitle]) tree := by
  let account : Tree := ⟨.subTitle (some 1), Subtotal.cents 300, [], []⟩
  let title : Tree := ⟨.title 1002, Subtotal.cents 300, [account], []⟩
  let tree : Tree := ⟨.root, Subtotal.cents 300, [title], []⟩
  have htree : Subtotal.ofPostings (.ofLevels [.title, .subTitle]) (fun _ _ _ => none) deposit =
      .ok tree := rfl
  obtain ⟨-, nodes, hmem, -, hlines⟩ :=
    textLines_in_preorder (s := standard) rfl depositNames htree
  have htitle : ([title.key], title) ∈ nodes :=
    (hmem _ _).2 (.under List.mem_cons_self (.here title))
  have haccount : ([title.key, account.key], account) ∈ nodes :=
    (hmem _ _).2 (.under List.mem_cons_self (.under List.mem_cons_self (.here account)))
  refine ⟨tree, htree, ?_⟩
  rw [hlines, List.mem_flatMap, List.mem_flatMap]
  exact ⟨⟨_, htitle, by decide +kernel⟩, ⟨_, haccount, by decide +kernel⟩⟩

end Presentation

end Bookkeeping
