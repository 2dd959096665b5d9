import Bookkeeping.Proofs.Subtotal.GroupBy

set_option autoImplicit false

/-! # The groups of a level share out the entries

Every entry with keys left belongs to exactly one of the groups right below. So whatever is added
up over the entries of these groups, group by group, comes to the same as over all entries at
once, and the same holds of the entries that are taken. -/

namespace Bookkeeping.Subtotal

/-- Every entry has keys for so many levels. -/
def HaveDepth (levels : Nat) (es : List Entry) : Prop :=
  ∀ e ∈ es, e.keys.length = levels

namespace HaveDepth

variable {levels : Nat} {es : List Entry}

theorem within (h : HaveDepth (levels + 1) es) (key : Key) :
    HaveDepth levels (Subtotal.within key es) := by
  intro inner hinner
  obtain ⟨e, he, hin⟩ := mem_within.1 hinner
  have hlength := h e he
  rw [(within?_eq_some.1 hin).1, List.length_cons] at hlength
  exact Nat.succ.inj hlength

theorem entriesOf (spec : Spec) (records : List (Posting × Decimal)) :
    HaveDepth spec.effectiveLevels.length (spec.entriesOf records) := by
  intro e he
  obtain ⟨r, _, rfl⟩ := List.mem_map.1 he
  exact spec.length_keysOf r.1

theorem withinPath_entriesOf (spec : Spec) (records : List (Posting × Decimal)) (path : List Key) :
    HaveDepth (spec.effectiveLevels.length - path.length)
      (withinPath path (spec.entriesOf records)) := by
  rw [Subtotal.withinPath_entriesOf]
  intro e he
  obtain ⟨r, _, rfl⟩ := List.mem_map.1 he
  show ((spec.keysOf r.1).drop path.length).length = _
  rw [List.length_drop, spec.length_keysOf]

end HaveDepth

/-! ## Sums group by group -/

section Sums

variable {M : Type} [AddCommMonoid M] {levels : Nat} {es : List Entry}

/-- Of different keys one at most leads an entry on. -/
theorem sum_within? {keys : List Key} (hnodup : keys.Nodup) (f : Movement → M) {e : Entry}
    {key : Key} (hkey : e.keys.head? = some key) (hmem : key ∈ keys) :
    (keys.map fun k => ((e.within? k).toList.map fun e => f e.movement).sum).sum =
      f e.movement := by
  obtain ⟨rest, hrest⟩ := List.head?_eq_some_iff.1 hkey
  have hin : e.within? key = some ⟨rest, e.movement, e.voucher⟩ :=
    within?_eq_some.2 ⟨hrest, rfl, rfl⟩
  obtain ⟨front, back, rfl⟩ := List.append_of_mem hmem
  have hzero : ∀ part : List Key, key ∉ part →
      (part.map fun k => ((e.within? k).toList.map fun e => f e.movement).sum).sum = 0 := by
    intro part hnot
    refine List.sum_eq_zero ?_
    intro x hx
    obtain ⟨k, hk, rfl⟩ := List.mem_map.1 hx
    rw [within?_eq_none_of_ne hin fun heq => hnot (heq ▸ hk)]
    rfl
  have hfront : key ∉ front ∧ key ∉ back := by
    obtain ⟨_, hback, hdisjoint⟩ := List.nodup_append.1 hnodup
    refine ⟨fun h => hdisjoint key h key List.mem_cons_self rfl, (List.nodup_cons.1 hback).1⟩
  rw [List.map_append, List.sum_append, List.map_cons, List.sum_cons, hzero front hfront.1,
    hzero back hfront.2, hin]
  simp

/-- What is added up over the groups of some keys, if these lead every entry on. -/
theorem sum_within {keys : List Key} (hnodup : keys.Nodup) (f : Movement → M)
    (hkeys : ∀ e ∈ es, ∃ key ∈ keys, e.keys.head? = some key) :
    (keys.map fun key => ((within key es).map fun e => f e.movement).sum).sum =
      (es.map fun e => f e.movement).sum := by
  induction es with
  | nil => simp [within]
  | cons e rest ih =>
      obtain ⟨key, hmem, hkey⟩ := hkeys e List.mem_cons_self
      simp only [within_cons, List.map_append, List.sum_append, List.sum_map_add, List.map_cons,
        List.sum_cons]
      rw [sum_within? hnodup f hkey hmem, ih fun b hb => hkeys b (List.mem_cons_of_mem e hb)]

theorem HaveDepth.head?_mem_firstKeys (h : HaveDepth (levels + 1) es) :
    ∀ e ∈ es, ∃ key ∈ firstKeys es, e.keys.head? = some key := by
  intro e he
  obtain ⟨key, rest, hrest⟩ := List.exists_cons_of_length_eq_add_one (h e he)
  have hkey : e.keys.head? = some key := by rw [hrest, List.head?_cons]
  exact ⟨key, List.mem_eraseDups.2 (List.mem_filterMap.2 ⟨e, he, hkey⟩), hkey⟩

/-- The groups right below share out the entries. -/
theorem HaveDepth.sum_firstKeys (h : HaveDepth (levels + 1) es) (f : Movement → M) :
    ((firstKeys es).map fun key => ((Subtotal.within key es).map fun e => f e.movement).sum).sum =
      (es.map fun e => f e.movement).sum :=
  sum_within (nodup_firstKeys es) f h.head?_mem_firstKeys

/-- What the entries that are taken add up to. -/
def takenSum (f : Movement → M) (es : List Entry) : M :=
  ((taken es).map fun e => f e.movement).sum

/-- The groups right below share out the entries that are taken. -/
theorem HaveDepth.takenSum_firstKeys (h : HaveDepth (levels + 1) es) (f : Movement → M) :
    ((firstKeys es).map fun key => takenSum f (Subtotal.within key es)).sum = takenSum f es := by
  unfold takenSum
  simp only [← within_taken]
  refine sum_within (nodup_firstKeys es) f ?_
  intro e he
  exact h.head?_mem_firstKeys e ((taken_sublist es).subset he)

end Sums

/-- A sum is no larger than its terms are together. -/
theorem abs_sum_le {α : Type} {l : List α} {f g : α → ℚ} (h : ∀ a ∈ l, |f a| ≤ g a) :
    |(l.map f).sum| ≤ (l.map g).sum := by
  induction l with
  | nil => simp
  | cons a rest ih =>
      have hrest := ih fun b hb => h b (List.mem_cons_of_mem a hb)
      rw [List.map_cons, List.sum_cons, List.map_cons, List.sum_cons]
      exact (abs_add_le _ _).trans (add_le_add (h a List.mem_cons_self) hrest)

end Bookkeeping.Subtotal
