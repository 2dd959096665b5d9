import Bookkeeping.Subtotal.Tree

set_option autoImplicit false

/-! # The natural order of keys

Keys are compared by level first, then as texts or as numbers, whichever the level has. Said so,
the order is lexicographic in three projections of a key, and these determine it; it is therefore
a linear order, and sorting groups with different keys puts them in strictly ascending order. -/

namespace Bookkeeping.Subtotal

namespace Key

/-- The text that a key compares by within its level, if its level has texts. -/
def text? : Key → Option String
  | currency s | user s => some s
  | content s | remark s => s
  | _ => none

/-- The number that a key compares by within its level, if its level has numbers. -/
def number? : Key → Option Int
  | title t => some t.toInt
  | subTitle t => t.map (·.toInt)
  | date d => d.map (·.key)
  | _ => none

/-- Equal keys are those with equal projections. -/
theorem eq_of_projections {a b : Key} (hrank : a.rank = b.rank) (htext : a.text? = b.text?)
    (hnumber : a.number? = b.number?) : a = b := by
  -- keys of one rank are of one level, which has a text or a number to tell them apart
  cases a <;> cases b <;> cases hrank
  case root.root => rfl
  case currency.currency => exact congrArg currency (Option.some.inj htext)
  case title.title => exact congrArg title (Int32.toInt_inj.1 (Option.some.inj hnumber))
  case subTitle.subTitle a b =>
      exact congrArg subTitle (Option.map_injective (fun _ _ => Int32.toInt_inj.1) hnumber)
  case content.content => exact congrArg content htext
  case remark.remark => exact congrArg remark htext
  case user.user => exact congrArg user (Option.some.inj htext)
  case date.date a b =>
      exact congrArg date (Option.map_injective (fun _ _ => Date.key_injective) hnumber)

/-- The natural order is lexicographic: by level, then by text, then by number. -/
theorem compareKeys_eq_lex :
    compareKeys =
      compareLex (compareOn rank) (compareLex (compareOn text?) (compareOn number?)) := by
  funext a b
  -- between levels the ranks decide, and both sides compute
  cases a <;> cases b <;> try rfl
  case currency.currency a b => exact (Ordering.then_eq (o := compare a b)).symm
  case user.user a b => exact (Ordering.then_eq (o := compare a b)).symm
  case subTitle.subTitle a b => cases a <;> cases b <;> rfl
  case date.date a b => cases a <;> cases b <;> rfl
  case content.content a b =>
      cases a <;> cases b <;> try rfl
      next a b => exact (Ordering.then_eq (o := compare a b)).symm
  case remark.remark a b =>
      cases a <;> cases b <;> try rfl
      next a b => exact (Ordering.then_eq (o := compare a b)).symm

instance : Std.TransCmp compareKeys := by
  rw [compareKeys_eq_lex]
  infer_instance

instance : Std.LawfulEqCmp compareKeys where
  eq_of_compare {a b} h := by
    simp only [compareKeys_eq_lex, compareLex_eq_eq, compareOn] at h
    obtain ⟨hrank, htext, hnumber⟩ := h
    exact eq_of_projections (Std.LawfulEqOrd.eq_of_compare hrank)
      (Std.LawfulEqOrd.eq_of_compare htext) (Std.LawfulEqOrd.eq_of_compare hnumber)

instance : Std.TransOrd Key := inferInstanceAs (Std.TransCmp compareKeys)

instance : Std.LawfulEqOrd Key := inferInstanceAs (Std.LawfulEqCmp compareKeys)

end Key

/-! ## Siblings in order -/

/-- Groups in the order of their keys, as a comparison says. -/
def inOrder (cmp : Key → Key → Ordering) (groups : List Tree) : List Tree :=
  groups.mergeSort fun a b => (cmp a.key b.key).isLE

theorem inOrder_perm (cmp : Key → Key → Ordering) (groups : List Tree) :
    (inOrder cmp groups).Perm groups :=
  List.mergeSort_perm _ _

theorem inOrder_pairwise (cmp : Key → Key → Ordering) [Std.TransCmp cmp] (groups : List Tree) :
    (inOrder cmp groups).Pairwise fun a b => (cmp a.key b.key).isLE = true := by
  have htotal : ∀ a b : Tree, ((cmp a.key b.key).isLE || (cmp b.key a.key).isLE) = true := by
    intro a b
    have hswap : cmp b.key a.key = (cmp a.key b.key).swap := Std.OrientedCmp.eq_swap
    rw [hswap]
    cases cmp a.key b.key <;> rfl
  exact @List.pairwise_mergeSort _ (fun a b => (cmp a.key b.key).isLE)
    (fun _ _ _ => Std.TransCmp.isLE_trans) htotal groups

/-- Sorting puts groups with different keys in strictly ascending order. -/
theorem inOrder_ascending (cmp : Key → Key → Ordering) [Std.TransCmp cmp] [Std.LawfulEqCmp cmp]
    {groups : List Tree} (h : (groups.map (·.key)).Nodup) :
    (inOrder cmp groups).Pairwise fun a b => cmp a.key b.key = .lt := by
  have hne : (inOrder cmp groups).Pairwise fun a b => a.key ≠ b.key := by
    rw [← List.pairwise_map (f := Tree.key) (R := (· ≠ ·))]
    exact ((inOrder_perm cmp groups).map _).nodup_iff.2 h
  refine ((inOrder_pairwise cmp groups).and hne).imp ?_
  intro a b hab
  obtain ⟨hab, hkeys⟩ := hab
  cases hcompare : cmp a.key b.key with
  | lt => rfl
  | eq => exact absurd (Std.LawfulEqCmp.eq_of_compare hcompare) hkeys
  | gt =>
      rw [hcompare] at hab
      cases hab

/-- Whatever order groups with the same keys come in, sorting puts their keys in one order. -/
theorem map_key_inOrder (cmp : Key → Key → Ordering) [Std.TransCmp cmp] [Std.LawfulEqCmp cmp]
    {groups others : List Tree} (h : (groups.map (·.key)).Perm (others.map (·.key))) :
    (inOrder cmp groups).map (·.key) = (inOrder cmp others).map (·.key) := by
  have hsorted (l : List Tree) :
      ((inOrder cmp l).map (·.key)).Pairwise fun a b => (cmp a b).isLE = true :=
    List.pairwise_map.2 (inOrder_pairwise cmp l)
  have hperm : ((inOrder cmp groups).map (·.key)).Perm ((inOrder cmp others).map (·.key)) :=
    ((inOrder_perm cmp groups).map _).trans (h.trans ((inOrder_perm cmp others).map _).symm)
  refine hperm.eq_of_pairwise (fun a b _ _ hab hba => ?_) (hsorted _) (hsorted _)
  exact Std.LawfulEqCmp.eq_of_compare (Std.OrientedCmp.isLE_antisymm hab hba)

namespace Tree

/-- The groups right below a group, in the natural order of their keys. -/
def inKeyOrder (t : Tree) : List Tree :=
  t.children.mergeSort fun a b => (compare a.key b.key).isLE

/-- At every level, so many of them below the group, no two siblings have the same key. -/
def DistinctSiblings : Nat → Tree → Prop
  | 0, _ => True
  | levels + 1, t =>
      (t.children.map (·.key)).Nodup ∧ ∀ child ∈ t.children, child.DistinctSiblings levels

theorem inKeyOrder_perm (t : Tree) : t.inKeyOrder.Perm t.children :=
  List.mergeSort_perm _ _

/-- Siblings with different keys stand in strictly ascending order. -/
theorem inKeyOrder_ascending {t : Tree} (h : (t.children.map (·.key)).Nodup) :
    t.inKeyOrder.Pairwise fun a b => compare a.key b.key = .lt :=
  inOrder_ascending compare h

/-- At every level, so many of them below the group, `inKeyOrder` puts all siblings in strictly
    ascending order. -/
def AscendingSiblings : Nat → Tree → Prop
  | 0, _ => True
  | levels + 1, t =>
      t.inKeyOrder.Perm t.children ∧
        (t.inKeyOrder.Pairwise fun a b => compare a.key b.key = .lt) ∧
        ∀ child ∈ t.inKeyOrder, child.AscendingSiblings levels

theorem DistinctSiblings.ascending {levels : Nat} {t : Tree} (h : t.DistinctSiblings levels) :
    t.AscendingSiblings levels := by
  induction levels generalizing t with
  | zero => trivial
  | succ levels ih =>
      refine ⟨t.inKeyOrder_perm, inKeyOrder_ascending h.1, ?_⟩
      intro child hchild
      exact ih (h.2 child (t.inKeyOrder_perm.mem_iff.1 hchild))

end Tree

end Bookkeeping.Subtotal
