import Bookkeeping.Proofs.Subtotal.Selections
import Bookkeeping.Proofs.Subtotal.TakenOrder

set_option autoImplicit false

/-! # Subtotals of the same postings

Two subtotals are alike, `Tree.Alike`, if the same groups stand in them with the same values and
the same readings, and only the order of siblings is another one. Postings in another order give a
subtotal that is alike, and so do postings of the same details whose vouchers have other places.
How the amounts are written may differ, since the scale of a sum depends on the order; their
values do not. -/

namespace Bookkeeping.Subtotal

open Decimal (ExactlySummable)

/-! ## Trees that are alike -/

/-- Two groups have the same key, the same value and the same readings. -/
structure Tree.SameValues (t other : Tree) : Prop where
  key_eq : t.key = other.key
  fund_eq : t.fund.toRat = other.fund.toRat
  readings_eq : t.readings.map Reading.value = other.readings.map Reading.value

/-- Two groups with so many levels below them differ in the order of siblings at most: no key
    stands twice right below, the same keys stand below both, and groups of one key are alike. -/
def Tree.Alike : Nat → Tree → Tree → Prop
  | 0, t, other => t.SameValues other ∧ t.children = [] ∧ other.children = []
  | levels + 1, t, other =>
      t.SameValues other ∧ (t.children.map (·.key)).Nodup ∧
        (t.children.map (·.key)).Perm (other.children.map (·.key)) ∧
        ∀ a ∈ t.children, ∀ b ∈ other.children, a.key = b.key → a.Alike levels b

theorem Tree.Alike.sameValues {levels : Nat} {t other : Tree} (h : t.Alike levels other) :
    t.SameValues other := by
  cases levels <;> exact h.1

/-- Groups of one key that present the same entries are alike. -/
theorem Tree.Presents.alike {spec : Spec} {levels : Nat} {es others : List Entry} {t other : Tree}
    (hkey : t.key = other.key) (h : t.Presents spec levels es)
    (hother : other.Presents spec levels others) (hsame : SameTaken es others) :
    t.Alike levels other := by
  induction levels generalizing es others t other with
  | zero =>
      obtain ⟨hchildren, hfund, hreadings⟩ := h
      obtain ⟨hchildren', hfund', hreadings'⟩ := hother
      refine ⟨⟨hkey, ?_, ?_⟩, hchildren, hchildren'⟩
      · rw [hfund, hfund', hsame.worth_eq]
      · rw [hreadings, hreadings', Group.readingValues_perm hsame.movements]
  | succ levels ih =>
      obtain ⟨hreadings, hfund, hkeys, hchildren⟩ := h
      obtain ⟨hreadings', hfund', hkeys', hchildren'⟩ := hother
      refine ⟨⟨hkey, ?_, ?_⟩, ?_, ?_, ?_⟩
      · rw [hfund, hfund', hsame.worth_eq]
      · rw [hreadings, hreadings']
      · rw [hkeys]
        exact (nodup_firstKeys es).filter _
      · rw [hkeys, hkeys']
        exact hsame.keptKeys_perm spec
      · intro a ha b hb hab
        have hb := hchildren' b hb
        rw [← hab] at hb
        exact ih hab (hchildren a ha) hb (hsame.within a.key)

/-! ## Postings of the same details -/

section

variable {spec : Spec} {rates : RateLookup} {entries others records : List (Posting × Decimal)}

/-- A place identifies a voucher, as it does in a ledger: postings of one place are postings of one
    voucher. -/
def OfOneVoucherEach (entries : List (Posting × Decimal)) : Prop :=
  ∀ a ∈ entries, ∀ b ∈ entries, a.1.voucherPlace = b.1.voucherPlace → a.1.voucher = b.1.voucher

theorem voucherOf_isSome (spec : Spec) (p : Posting) :
    (spec.voucherOf p).isSome = true ↔ spec.gather = .voucherCount := by
  unfold Spec.voucherOf
  split <;> simp [*]

/-- Postings that are counted for one voucher have the same date. -/
theorem OfOneVoucherEach.date_eq (h : OfOneVoucherEach entries) {a b : Posting × Decimal}
    (ha : a ∈ entries) (hb : b ∈ entries) (hsome : (spec.voucherOf a.1).isSome = true)
    (hsame : spec.voucherOf a.1 = spec.voucherOf b.1) : a.1.date = b.1.date := by
  have hgather := (voucherOf_isSome spec a.1).1 hsome
  have hplace : a.1.voucherPlace = b.1.voucherPlace := by
    simpa [Spec.voucherOf, hgather] using hsame
  exact congrArg Voucher.date (h a ha b hb hplace)

/-- The same detail on the same date with the same amount, of a voucher at another place. -/
structure Resembles (σ : Nat → Nat) (e other : Posting × Decimal) : Prop where
  detail_eq : other.1.detail = e.1.detail
  date_eq : other.1.date = e.1.date
  place_eq : other.1.voucherPlace = σ e.1.voucherPlace
  amount_eq : other.2 = e.2

/-- The same details in another order, of vouchers at other places. -/
def Rearranges (σ : Nat → Nat) (entries others : List (Posting × Decimal)) : Prop :=
  ∃ between, others.Perm between ∧ List.Forall₂ (Resembles σ) entries between

theorem Rearranges.of_perm (h : entries.Perm others) : Rearranges id entries others :=
  ⟨entries, h.symm, List.forall₂_same.2 fun _ _ => ⟨rfl, rfl, rfl, rfl⟩⟩

namespace Resembles

variable {σ : Nat → Nat} {e other : Posting × Decimal}

theorem amountOf_eq (h : Resembles σ e other) (spec : Spec) (rates : RateLookup) :
    spec.amountOf rates other.1 other.2 = spec.amountOf rates e.1 e.2 := by
  unfold Spec.amountOf
  rw [h.detail_eq, h.date_eq, h.amount_eq]

theorem entryOf_eq (h : Resembles σ e other) (spec : Spec) (amount : Decimal) :
    spec.entryOf other.1 amount = (spec.entryOf e.1 amount).renumber σ := by
  have hkeys : spec.keysOf other.1 = spec.keysOf e.1 := by
    refine List.map_congr_left fun level _ => ?_
    cases level <;> simp only [Key.of, h.detail_eq, h.date_eq]
  have hvoucher : spec.voucherOf other.1 = (spec.voucherOf e.1).map σ := by
    unfold Spec.voucherOf
    rw [h.place_eq]
    split <;> rfl
  unfold Spec.entryOf Entry.renumber
  rw [hkeys, hvoucher, h.date_eq]

end Resembles

/-- Every record is a posting with its converted amount. -/
theorem mem_convertAll (hconvert : spec.convertAll rates entries = .ok records) :
    ∀ r ∈ records, ∃ amount, (r.1, amount) ∈ entries ∧
      spec.amountOf rates r.1 amount = .ok r.2 := by
  induction entries generalizing records with
  | nil =>
      cases hconvert
      simp
  | cons entry rest ih =>
      obtain ⟨p, amount⟩ := entry
      obtain ⟨converted, more, hconverted, hmore, rfl⟩ := convertAll_cons.1 hconvert
      intro r hr
      rcases List.mem_cons.1 hr with rfl | hr
      · exact ⟨amount, List.mem_cons_self, hconverted⟩
      · obtain ⟨found, hmem, hfound⟩ := ih hmore r hr
        exact ⟨found, List.mem_cons_of_mem _ hmem, hfound⟩

/-- Where vouchers are counted, entries of one voucher with the same keys have the same
    movement: they count one, on the date of the voucher. -/
theorem oneMovementEach_entriesOf (hvouchers : OfOneVoucherEach entries)
    (hconvert : spec.convertAll rates entries = .ok records) :
    OneMovementEach (spec.entriesOf records) := by
  intro a ha b hb hsome _ hvoucher
  obtain ⟨r, hr, rfl⟩ := List.mem_map.1 ha
  obtain ⟨q, hq, rfl⟩ := List.mem_map.1 hb
  have hgather := (voucherOf_isSome spec r.1).1 hsome
  have hcount (p : Posting) (amount : Decimal) : spec.amountOf rates p amount = .ok .one := by
    rw [Spec.amountOf, hgather]
    rfl
  obtain ⟨x, hx, hr⟩ := mem_convertAll hconvert r hr
  obtain ⟨y, hy, hq⟩ := mem_convertAll hconvert q hq
  rw [hcount, Except.ok.injEq] at hr hq
  have hdate : r.1.date = q.1.date :=
    hvouchers.date_eq (a := (r.1, x)) (b := (q.1, y)) hx hy hsome hvoucher
  show (r.1.date, r.2) = (q.1.date, q.2)
  rw [hdate, ← hr, ← hq]

/-- Postings of the same details have the same entries, under the other numbers of their
    vouchers. -/
theorem entriesOf_resembles {σ : Nat → Nat} (h : List.Forall₂ (Resembles σ) entries others)
    (hconvert : spec.convertAll rates entries = .ok records) :
    ∃ found, spec.convertAll rates others = .ok found ∧
      spec.entriesOf found = (spec.entriesOf records).map (·.renumber σ) := by
  induction h generalizing records with
  | nil =>
      cases hconvert
      exact ⟨[], rfl, rfl⟩
  | @cons e other _ _ hfirst _ ih =>
      obtain ⟨converted, more, hconverted, hmore, rfl⟩ := convertAll_cons.1 hconvert
      obtain ⟨found, hfound, hentries⟩ := ih hmore
      rw [← hfirst.amountOf_eq] at hconverted
      refine ⟨(other.1, converted) :: found,
        convertAll_cons.2 ⟨converted, found, hconverted, hfound, rfl⟩, ?_⟩
      show spec.entryOf other.1 converted :: spec.entriesOf found = _
      rw [hfirst.entryOf_eq, hentries]
      rfl

/-- Postings in another order have their records in another order. -/
theorem convertAll_perm (h : entries.Perm others)
    (hconvert : spec.convertAll rates entries = .ok records) :
    ∃ found, spec.convertAll rates others = .ok found ∧ found.Perm records := by
  obtain ⟨found, hfound, hperm⟩ := List.perm_comp_forall₂ h.symm (mapM_eq_ok.1 hconvert)
  exact ⟨found, mapM_eq_ok.2 hfound, hperm⟩

theorem Rearranges.entriesOf {σ : Nat → Nat} (h : Rearranges σ entries others)
    (hconvert : spec.convertAll rates entries = .ok records) :
    ∃ found, spec.convertAll rates others = .ok found ∧
      (spec.entriesOf found).Perm ((spec.entriesOf records).map (·.renumber σ)) := by
  obtain ⟨between, hperm, hresembles⟩ := h
  obtain ⟨middle, hmiddle, hentries⟩ := entriesOf_resembles hresembles hconvert
  obtain ⟨found, hfound, hfoundPerm⟩ := convertAll_perm hperm.symm hmiddle
  refine ⟨found, hfound, ?_⟩
  rw [← hentries]
  exact hfoundPerm.map _

/-! ## Their subtotals -/

/-- The subtotal of postings that add up exactly presents them, whatever is gathered and read and
    whether groups are dropped or not. -/
theorem ofPostings_presents (hconvert : spec.convertAll rates entries = .ok records)
    (hsum : ExactlySummable (records.map (·.2))) :
    ∃ tree, ofPostings spec rates entries = .ok tree ∧ tree.key = .root ∧
      tree.Presents spec spec.effectiveLevels.length (spec.entriesOf records) := by
  obtain ⟨all, hall, hkey, hholds⟩ := enterAll_summable hconvert hsum
  rw [← amounts_entriesOf spec] at hsum
  obtain ⟨s, hsum⟩ := hsum
  obtain ⟨tree, htreeKey, hpresents, hfinish⟩ := hholds.finish_presents
    (.entriesOf spec records) (hsum.sublist (amounts_taken_sublist _))
  exact ⟨tree, ofPostings_eq_ok hall hfinish, htreeKey.trans hkey, hpresents⟩

/-- Rearranged postings that add up exactly have a subtotal that is alike. -/
theorem ofPostings_alike {σ : Nat → Nat} (hσ : Function.Injective σ)
    (h : Rearranges σ entries others) (hvouchers : OfOneVoucherEach entries)
    (hconvert : spec.convertAll rates entries = .ok records)
    (hsum : ExactlySummable (records.map (·.2))) :
    ∃ tree other, ofPostings spec rates entries = .ok tree ∧
      ofPostings spec rates others = .ok other ∧ tree.Alike spec.effectiveLevels.length other := by
  obtain ⟨found, hfound, hentries⟩ := h.entriesOf hconvert
  have hamounts : (found.map (·.2)).Perm (records.map (·.2)) := by
    have hmap := hentries.map fun e => e.movement.2
    rw [List.map_map] at hmap
    rw [← amounts_entriesOf spec, ← amounts_entriesOf spec]
    exact hmap
  obtain ⟨tree, htree, hkey, hpresents⟩ := ofPostings_presents hconvert hsum
  obtain ⟨other, hother, hotherKey, hotherPresents⟩ :=
    ofPostings_presents hfound (hsum.subperm hamounts.subperm)
  have hsame := sameTaken_of_renumbered hσ hentries
    (oneMovementEach_entriesOf hvouchers hconvert)
  exact ⟨tree, other, htree, hother,
    hpresents.alike (hkey.trans hotherKey.symm) hotherPresents hsame⟩

end

end Bookkeeping.Subtotal
