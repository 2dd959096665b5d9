import Bookkeeping.Proofs.Subtotal.Alike

set_option autoImplicit false

/-! # The order of a ledger

A ledger may have its vouchers in another order, and each voucher its details. Filters see no
difference, so the same details are selected; only their order and the places of their vouchers
are other ones. Different vouchers still have different places. -/

namespace Bookkeeping

/-! ## Ledgers in another order -/

/-- The same voucher with its details in another order. -/
def Voucher.Reorders (v other : Voucher) : Prop :=
  ∃ details, v.details.Perm details ∧ other = { v with details := details }

/-- The details of each voucher in another order, and then the vouchers. -/
def Ledger.Reorders (ledger other : Ledger) : Prop :=
  ∃ between, List.Forall₂ Voucher.Reorders ledger between ∧ between.Perm other

/-- Filters that accept the same items make queries that do. -/
theorem Query.holds_congr {α τ : Type} {accepts : α → τ → Bool} {a b : τ}
    (h : ∀ f, accepts f a = accepts f b) (q : Query α) : q.holds accepts a = q.holds accepts b := by
  induction q with
  | leaf f => exact h f
  | unary op q ih => cases op <;> simp only [holds, ih]
  | binary op l r ihl ihr => simp only [holds, ihl, ihr]
  | dangling op l ih => exact ih

/-- A filter asks for some detail or for all of them, in whatever order. -/
theorem VoucherFilter.accepts_reorders {v other : Voucher} (h : v.Reorders other)
    (f : VoucherFilter) : f.accepts v = f.accepts other := by
  obtain ⟨details, hperm, rfl⟩ := h
  unfold accepts acceptsGiven
  simp only [hperm.any_eq, hperm.all_eq]

/-! ## Places -/

/-- In another order every item has another place, and different items have different ones. -/
theorem exists_places_of_perm {α : Type} {l others : List α} (h : l.Perm others) (k : Nat) :
    ∃ σ : Equiv.Perm ℕ, (∀ i < k, σ i = i) ∧
      (others.zipIdx k).Perm ((l.zipIdx k).map fun e => (e.1, σ e.2)) := by
  induction h generalizing k with
  | nil => exact ⟨1, fun _ _ => rfl, .refl _⟩
  | cons a _ ih =>
      obtain ⟨σ, hfix, hperm⟩ := ih (k + 1)
      refine ⟨σ, fun i hi => hfix i (Nat.lt_succ_of_lt hi), ?_⟩
      rw [List.zipIdx_cons, List.zipIdx_cons, List.map_cons, hfix k (Nat.lt_succ_self k)]
      exact hperm.cons _
  | swap a b rest =>
      refine ⟨Equiv.swap k (k + 1), ?_, ?_⟩
      · intro i hi
        exact Equiv.swap_apply_of_ne_of_ne (by omega) (by omega)
      · simp only [List.zipIdx_cons, List.map_cons, Equiv.swap_apply_left, Equiv.swap_apply_right]
        have hrest : ((rest.zipIdx (k + 1 + 1)).map fun e => (e.1, Equiv.swap k (k + 1) e.2)) =
            rest.zipIdx (k + 1 + 1) := by
          -- what stands behind the two keeps its place
          refine (List.map_congr_left fun e he => ?_).trans (List.map_id _)
          have hplace := List.le_snd_of_mem_zipIdx he
          rw [Equiv.swap_apply_of_ne_of_ne (by omega) (by omega)]
          rfl
        rw [hrest]
        exact .swap _ _ _
  | trans _ _ ih₁ ih₂ =>
      obtain ⟨σ, hσ, hfirst⟩ := ih₁ k
      obtain ⟨τ, hτ, hsecond⟩ := ih₂ k
      refine ⟨σ.trans τ, ?_, ?_⟩
      · intro i hi
        rw [Equiv.trans_apply, hσ i hi, hτ i hi]
      · have hmap := hfirst.map fun e => (e.1, τ e.2)
        rw [List.map_map] at hmap
        exact hsecond.trans hmap

theorem forall₂_zipIdx {α : Type} {R : α → α → Prop} {l others : List α}
    (h : List.Forall₂ R l others) (k : Nat) :
    List.Forall₂ (fun e o => R e.1 o.1 ∧ e.2 = o.2) (l.zipIdx k) (others.zipIdx k) := by
  induction h generalizing k with
  | nil => exact .nil
  | cons hfirst _ ih =>
      rw [List.zipIdx_cons, List.zipIdx_cons]
      exact .cons ⟨hfirst, rfl⟩ (ih (k + 1))

namespace Subtotal

/-! ## Selections -/

theorem Rearranges.append {σ : Nat → Nat} {front front' back back' : List (Posting × Decimal)}
    (h : Rearranges σ front front') (h' : Rearranges σ back back') :
    Rearranges σ (front ++ back) (front' ++ back') := by
  obtain ⟨between, hperm, hresembles⟩ := h
  obtain ⟨between', hperm', hresembles'⟩ := h'
  exact ⟨between ++ between', hperm.append hperm', List.rel_append hresembles hresembles'⟩

theorem Rearranges.flatMap {σ : Nat → Nat} {α : Type} {R : α → α → Prop} {l others : List α}
    {f g : α → List (Posting × Decimal)} (h : List.Forall₂ R l others)
    (hR : ∀ a b, R a b → Rearranges σ (f a) (g b)) :
    Rearranges σ (l.flatMap f) (others.flatMap g) := by
  induction h with
  | nil => exact ⟨[], .refl _, .nil⟩
  | cons hfirst _ ih =>
      rw [List.flatMap_cons, List.flatMap_cons]
      exact (hR _ _ hfirst).append ih

theorem Rearranges.perm {σ : Nat → Nat} {entries others more : List (Posting × Decimal)}
    (h : Rearranges σ entries others) (hperm : others.Perm more) : Rearranges σ entries more := by
  obtain ⟨between, hbetween, hresembles⟩ := h
  exact ⟨between, hperm.symm.trans hbetween, hresembles⟩

/-- What a query selects from the voucher at a place. -/
def selectAt (q : PostingQuery) (v : Voucher) (place : Nat) : List (Posting × Decimal) :=
  ((v.postings place).filter q.selects).map fun p => (p, p.detail.fund)

theorem select_eq_flatMap (q : PostingQuery) (ledger : Ledger) :
    q.select ledger = ledger.zipIdx.flatMap fun e => selectAt q e.1 e.2 := by
  rw [q.select_eq, Ledger.postings, List.filter_flatMap, List.map_flatMap]
  rfl

/-- From a voucher with its details in another order, at another place, the same is selected. -/
theorem selectAt_rearranges (σ : Nat → Nat) (q : PostingQuery) {v other : Voucher}
    (h : v.Reorders other) (place : Nat) :
    Rearranges σ (selectAt q v place) (selectAt q other (σ place)) := by
  have hvouchers : q.vouchers.all (·.holds Filter.accepts v) =
      q.vouchers.all (·.holds Filter.accepts other) := by
    cases q.vouchers with
    | none => rfl
    | some vouchers => exact vouchers.holds_congr fun f => f.accepts_reorders h
  obtain ⟨details, hperm, rfl⟩ := h
  obtain ⟨τ, _, hplaces⟩ := exists_places_of_perm hperm 0
  -- the details that are selected, each still at its old place
  have hmoved := (hplaces.filter fun e => q.selects
    ⟨{ v with details := details }, σ place, e.1, e.2⟩).map fun e =>
      ((⟨{ v with details := details }, σ place, e.1, e.2⟩ : Posting), e.1.fund)
  rw [List.filter_map, List.map_map] at hmoved
  unfold selectAt Voucher.postings
  rw [List.filter_map, List.map_map, List.filter_map, List.map_map]
  refine ⟨_, hmoved, ?_⟩
  have hselects : (q.selects ∘ fun e : Detail × Nat => (⟨v, place, e.1, e.2⟩ : Posting)) =
      (fun e => q.selects ⟨{ v with details := details }, σ place, e.1, e.2⟩) ∘
        fun e => (e.1, τ e.2) := by
    funext e
    simp only [Function.comp_apply, PostingQuery.selects, hvouchers]
  rw [← hselects, List.forall₂_map_left_iff, List.forall₂_map_right_iff, List.forall₂_same]
  exact fun e _ => ⟨rfl, rfl, rfl, rfl⟩

/-- From a ledger in another order the same details are selected. -/
theorem select_rearranges {ledger other : Ledger} (h : ledger.Reorders other) (q : PostingQuery) :
    ∃ σ : Nat → Nat, Function.Injective σ ∧
      Rearranges σ (q.select ledger) (q.select other) := by
  obtain ⟨between, hdetails, hperm⟩ := h
  obtain ⟨σ, _, hplaces⟩ := exists_places_of_perm hperm 0
  refine ⟨σ, σ.injective, ?_⟩
  have hmoved : (between.zipIdx.flatMap fun e => selectAt q e.1 (σ e.2)).Perm (q.select other) := by
    rw [select_eq_flatMap]
    have hselected := hplaces.flatMap_right fun e => selectAt q e.1 e.2
    rw [List.flatMap_map] at hselected
    exact hselected.symm
  rw [select_eq_flatMap]
  refine Rearranges.perm (.flatMap (forall₂_zipIdx hdetails 0) ?_) hmoved
  rintro ⟨v, place⟩ ⟨w, _⟩ ⟨hreorders, rfl⟩
  exact selectAt_rearranges σ q hreorders place

/-- In a ledger a place is that of one voucher. -/
theorem ofOneVoucherEach_select (q : PostingQuery) (ledger : Ledger) :
    OfOneVoucherEach (q.select ledger) := by
  have hplace : ∀ e ∈ q.select ledger, ledger[e.1.voucherPlace]? = some e.1.voucher := by
    intro e he
    rw [select_eq_flatMap, List.mem_flatMap] at he
    obtain ⟨⟨v, place⟩, hmem, he⟩ := he
    obtain ⟨p, hp, rfl⟩ := List.mem_map.1 he
    obtain ⟨hvoucher, hplace⟩ := Voucher.voucher_of_mem_postings (List.mem_filter.1 hp).1
    rw [hvoucher, hplace]
    exact List.mem_zipIdx_iff_getElem?.1 hmem
  intro a ha b hb hab
  have hsame := hplace a ha
  rw [hab, hplace b hb] at hsame
  exact (Option.some.inj hsame).symm

end Subtotal

end Bookkeeping
