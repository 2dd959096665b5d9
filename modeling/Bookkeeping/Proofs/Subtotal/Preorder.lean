import Bookkeeping.Proofs.Subtotal.Finishing

set_option autoImplicit false

/-! # The groups of a tree in preorder

The keys on the way down to a group are its place in the tree, `HasAt`. Parents before the groups
below them and siblings in the order of their keys is the lexicographic order of places, so what
lists every group in that order, once, has only one way to do it: `inPreorder`. -/

namespace Bookkeeping.Subtotal.Tree

/-- Whether a group stands at a place in a tree, with the keys of the groups on the way down to it,
    its own included. -/
inductive HasAt : Tree → List Key → Tree → Prop where
  | here (t : Tree) : HasAt t [] t
  | under {t child node : Tree} {path : List Key} (hchild : child ∈ t.children)
      (h : HasAt child path node) : HasAt t (child.key :: path) node

/-- The groups of a tree with so many levels, each with its place: parents before the groups below
    them, siblings in the order of their keys. -/
def inPreorder (cmp : Key → Key → Ordering) : Nat → Tree → List (List Key × Tree)
  | 0, t => [([], t)]
  | levels + 1, t => ([], t) :: (inOrder cmp t.children).flatMap fun child =>
      (child.inPreorder cmp levels).map fun (path, node) => (child.key :: path, node)

variable {cmp : Key → Key → Ordering}

/-- Preorder lists every group of a tree. -/
theorem mem_inPreorder_iff {mode : SeriesMode} {levels : List Level} {t : Tree}
    (h : t.WellFormed mode levels) {path : List Key} {node : Tree} :
    (path, node) ∈ t.inPreorder cmp levels.length ↔ t.HasAt path node := by
  induction levels generalizing t path node with
  | nil =>
      constructor
      · intro hmem
        cases List.mem_singleton.1 hmem
        exact .here t
      · intro hat
        cases hat with
        | here => exact List.mem_singleton_self _
        | under hchild _ =>
            rw [h.1] at hchild
            cases hchild
  | cons level rest ih =>
      obtain ⟨_, _, hchildren⟩ := h
      have hsorted (child : Tree) : child ∈ inOrder cmp t.children ↔ child ∈ t.children :=
        (inOrder_perm cmp t.children).mem_iff
      constructor
      · intro hmem
        rcases List.mem_cons.1 hmem with heq | hmem
        · cases heq
          exact .here t
        · obtain ⟨child, hchild, hmem⟩ := List.mem_flatMap.1 hmem
          obtain ⟨⟨path, node⟩, hplace, heq⟩ := List.mem_map.1 hmem
          cases heq
          have hchild := (hsorted child).1 hchild
          exact .under hchild ((ih (hchildren child hchild).2).1 hplace)
      · intro hat
        cases hat with
        | here => exact List.mem_cons_self
        | @under _ child _ path hchild hat =>
            have hplace := (ih (hchildren child hchild).2).2 hat
            exact List.mem_cons_of_mem _ (List.mem_flatMap.2
              ⟨child, (hsorted child).2 hchild, List.mem_map_of_mem hplace⟩)

/-- Preorder is the lexicographic order of places, and strictly so: no place comes up twice. -/
theorem inPreorder_ascending [Std.TransCmp cmp] [Std.LawfulEqCmp cmp] {levels : Nat} {t : Tree}
    (h : t.DistinctSiblings levels) :
    (t.inPreorder cmp levels).Pairwise fun a b => List.Lex (cmp · · = .lt) a.1 b.1 := by
  induction levels generalizing t with
  | zero => exact List.pairwise_singleton _ _
  | succ levels ih =>
      obtain ⟨hkeys, hchildren⟩ := h
      refine List.pairwise_cons.2 ⟨?_, List.pairwise_flatMap.2 ⟨?_, ?_⟩⟩
      · -- a group comes before all groups below it
        intro place hplace
        obtain ⟨child, _, hplace⟩ := List.mem_flatMap.1 hplace
        obtain ⟨_, _, rfl⟩ := List.mem_map.1 hplace
        exact .nil
      · intro child hchild
        have hchild := (inOrder_perm cmp t.children).mem_iff.1 hchild
        exact List.pairwise_map.2 ((ih (hchildren child hchild)).imp .cons)
      · -- and so do all groups below a sibling that comes before
        refine (inOrder_ascending cmp hkeys).imp fun hlt a ha b hb => ?_
        obtain ⟨_, _, rfl⟩ := List.mem_map.1 ha
        obtain ⟨_, _, rfl⟩ := List.mem_map.1 hb
        exact .rel hlt

end Bookkeeping.Subtotal.Tree
