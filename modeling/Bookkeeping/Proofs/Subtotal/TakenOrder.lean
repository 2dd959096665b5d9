import Bookkeeping.Proofs.Subtotal.Worth

set_option autoImplicit false

/-! # The order of entries

Where vouchers are counted, only the first entry of a voucher with the same keys is taken, so it
depends on the order which entry that is. As long as such entries have the same movement, no
difference is left: the entries taken from two orders of the same entries are the same ones, in
another order. Nor does it matter which numbers the vouchers have, as long as different ones have
different numbers. `SameTaken` says this of two lists of entries; it passes from a group to those
below it, and settles which of these are kept and what they are worth. -/

namespace Bookkeeping.Subtotal

/-! ## Which entries are taken -/

/-- Entries of one voucher with the same keys have the same movement. -/
def OneMovementEach (es : List Entry) : Prop :=
  ∀ a ∈ es, ∀ b ∈ es, a.voucher.isSome = true → a.keys = b.keys → a.voucher = b.voucher →
    a.movement = b.movement

/-- Whether an entry is for the voucher of another one with the same keys. -/
def Entry.repeats (e b : Entry) : Bool :=
  e.voucher.isSome && (b.keys = e.keys && b.voucher = e.voucher)

theorem isRepeated_eq_any (before : List Entry) (e : Entry) :
    isRepeated before e = before.any e.repeats := by
  unfold isRepeated Entry.repeats
  cases e.voucher.isSome <;> simp

theorem isRepeated_append_singleton (before : List Entry) (b e : Entry) :
    isRepeated (before ++ [b]) e = (isRepeated before e || e.repeats b) := by
  rw [isRepeated_eq_any, isRepeated_eq_any, List.any_append, List.any_cons, List.any_nil,
    Bool.or_false]

theorem Entry.repeats_comm (a b : Entry) : a.repeats b = b.repeats a := by
  rw [Bool.eq_iff_iff]
  simp only [repeats, Bool.and_eq_true, decide_eq_true_eq]
  constructor <;>
  · rintro ⟨hsome, hkeys, hvoucher⟩
    exact ⟨hvoucher ▸ hsome, hkeys.symm, hvoucher.symm⟩

/-- Only the question which entries are repeated matters of those that came before. -/
theorem takenAfter_congr {before others : List Entry}
    (h : ∀ e, isRepeated before e = isRepeated others e) (es : List Entry) :
    takenAfter before es = takenAfter others es := by
  induction es generalizing before others with
  | nil => rfl
  | cons e rest ih =>
      have hrest : takenAfter (before ++ [e]) rest = takenAfter (others ++ [e]) rest := by
        refine ih fun a => ?_
        rw [isRepeated_append_singleton, isRepeated_append_singleton, h]
      rw [takenAfter, takenAfter, h, hrest]

theorem OneMovementEach.eq_of_repeats {es : List Entry} (h : OneMovementEach es) {a b : Entry}
    (ha : a ∈ es) (hb : b ∈ es) (hrepeats : a.repeats b = true) : a = b := by
  simp only [Entry.repeats, Bool.and_eq_true, decide_eq_true_eq] at hrepeats
  obtain ⟨hsome, hkeys, hvoucher⟩ := hrepeats
  have hmovement := h a ha b hb hsome hkeys.symm hvoucher.symm
  obtain ⟨keys, movement, voucher⟩ := a
  obtain ⟨keys', movement', voucher'⟩ := b
  cases hkeys
  cases hvoucher
  cases hmovement
  rfl

theorem takenAfter_perm {es others : List Entry} (h : es.Perm others) (hone : OneMovementEach es)
    (before : List Entry) : (takenAfter before es).Perm (takenAfter before others) := by
  induction h generalizing before with
  | nil => exact .refl _
  | cons e _ ih =>
      have ih := ih fun a ha b hb =>
        hone a (List.mem_cons_of_mem e ha) b (List.mem_cons_of_mem e hb)
      rw [takenAfter, takenAfter]
      split
      · exact ih _
      · exact (ih _).cons e
  | swap a b rest =>
      by_cases hsame : a.repeats b = true
      · -- one repeats the other, so they are equal and nothing was swapped
        rw [hone.eq_of_repeats (by simp) (by simp) hsame]
      · have hba : isRepeated (before ++ [b]) a = isRepeated before a := by
          simp [isRepeated_append_singleton, hsame]
        have hab : isRepeated (before ++ [a]) b = isRepeated before b := by
          rw [Entry.repeats_comm] at hsame
          simp [isRepeated_append_singleton, hsame]
        have hrest : takenAfter (before ++ [b] ++ [a]) rest =
            takenAfter (before ++ [a] ++ [b]) rest := by
          refine takenAfter_congr (fun e => ?_) rest
          simp only [isRepeated_append_singleton, Bool.or_assoc, Bool.or_comm (e.repeats a)]
        simp only [takenAfter, hba, hab, hrest]
        split <;> split
        · exact .refl _
        · exact .refl _
        · exact .refl _
        · exact .swap a b _
  | trans hfirst _ ih₁ ih₂ =>
      refine (ih₁ hone before).trans (ih₂ ?_ before)
      exact fun a ha b hb => hone a (hfirst.mem_iff.2 ha) b (hfirst.mem_iff.2 hb)

/-- The entries taken are the same ones in every order. -/
theorem taken_perm {es others : List Entry} (h : es.Perm others) (hone : OneMovementEach es) :
    (taken es).Perm (taken others) :=
  takenAfter_perm h hone []

/-! ## Vouchers with other numbers -/

/-- The entry with another number for its voucher. -/
def Entry.renumber (σ : Nat → Nat) (e : Entry) : Entry := { e with voucher := e.voucher.map σ }

theorem Entry.repeats_renumber {σ : Nat → Nat} (hσ : Function.Injective σ) (e b : Entry) :
    (e.renumber σ).repeats (b.renumber σ) = e.repeats b := by
  have hsame : b.voucher.map σ = e.voucher.map σ ↔ b.voucher = e.voucher :=
    (Option.map_injective hσ).eq_iff
  rw [Bool.eq_iff_iff]
  simp only [repeats, Bool.and_eq_true, decide_eq_true_eq]
  simp only [renumber, Option.isSome_map, hsame]

theorem isRepeated_renumber {σ : Nat → Nat} (hσ : Function.Injective σ) (before : List Entry)
    (e : Entry) : isRepeated (before.map (·.renumber σ)) (e.renumber σ) = isRepeated before e := by
  rw [isRepeated_eq_any, isRepeated_eq_any, List.any_map]
  exact congrArg before.any (funext fun b => e.repeats_renumber hσ b)

theorem taken_renumber {σ : Nat → Nat} (hσ : Function.Injective σ) (es : List Entry) :
    taken (es.map (·.renumber σ)) = (taken es).map (·.renumber σ) := by
  suffices hafter : ∀ before,
      takenAfter (before.map (·.renumber σ)) (es.map (·.renumber σ)) =
        (takenAfter before es).map (·.renumber σ) from hafter []
  induction es with
  | nil => exact fun _ => rfl
  | cons e rest ih =>
      intro before
      have hrest := ih (before ++ [e])
      rw [List.map_append, List.map_singleton] at hrest
      rw [List.map_cons, takenAfter, takenAfter, isRepeated_renumber hσ, hrest]
      split <;> rfl

/-! ## The same entries taken -/

/-- The entry without its voucher. -/
def Entry.anonymous (e : Entry) : Entry := { e with voucher := none }

/-- From both lists the same entries are taken, in whatever order and under whatever numbers of
    vouchers. -/
def SameTaken (es others : List Entry) : Prop :=
  ((taken es).map Entry.anonymous).Perm ((taken others).map Entry.anonymous)

/-- Entries in another order and with other numbers for their vouchers are taken alike. -/
theorem sameTaken_of_renumbered {σ : Nat → Nat} (hσ : Function.Injective σ)
    {es others : List Entry} (h : others.Perm (es.map (·.renumber σ)))
    (hone : OneMovementEach es) : SameTaken es others := by
  have hothers : OneMovementEach (es.map (·.renumber σ)) := by
    intro a ha b hb hsome hkeys hvoucher
    obtain ⟨x, hx, rfl⟩ := List.mem_map.1 ha
    obtain ⟨y, hy, rfl⟩ := List.mem_map.1 hb
    have hnumbers : x.voucher = y.voucher := Option.map_injective hσ hvoucher
    exact hone x hx y hy (by simpa [Entry.renumber] using hsome) hkeys hnumbers
  have hperm := (taken_perm h.symm hothers).map Entry.anonymous
  rw [taken_renumber hσ, List.map_map] at hperm
  exact hperm

theorem within?_anonymous (key : Key) (e : Entry) :
    e.anonymous.within? key = (e.within? key).map Entry.anonymous := by
  obtain ⟨keys, movement, voucher⟩ := e
  cases keys with
  | nil => rfl
  | cons k rest =>
      unfold Entry.within? Entry.anonymous
      dsimp only
      split <;> rfl

theorem within_anonymous (key : Key) (es : List Entry) :
    within key (es.map Entry.anonymous) = (within key es).map Entry.anonymous := by
  rw [within, List.filterMap_map, within, List.map_filterMap]
  congr 1
  funext e
  exact within?_anonymous key e

theorem taken_eq_nil {es : List Entry} : taken es = [] ↔ es = [] := by
  cases es with
  | nil => simp [taken, takenAfter]
  | cons e rest => simp [taken, takenAfter, isRepeated]

namespace SameTaken

variable {levels : Nat} {es others : List Entry}

theorem within (h : SameTaken es others) (key : Key) :
    SameTaken (Subtotal.within key es) (Subtotal.within key others) := by
  unfold SameTaken at h ⊢
  rw [← within_taken, ← within_taken, ← within_anonymous, ← within_anonymous]
  exact h.filterMap _

theorem movements (h : SameTaken es others) :
    ((taken es).map (·.movement)).Perm ((taken others).map (·.movement)) := by
  have hmap := List.Perm.map Entry.movement h
  rw [List.map_map, List.map_map] at hmap
  exact hmap

theorem eq_nil_iff (h : SameTaken es others) : es = [] ↔ others = [] := by
  have hlength := List.Perm.length_eq h
  rw [List.length_map, List.length_map] at hlength
  rw [← taken_eq_nil, ← List.length_eq_zero_iff, hlength, List.length_eq_zero_iff, taken_eq_nil]

theorem firstKeys (h : SameTaken es others) :
    (Subtotal.firstKeys es).Perm (Subtotal.firstKeys others) := by
  rw [List.perm_ext_iff_of_nodup (nodup_firstKeys es) (nodup_firstKeys others)]
  intro key
  rw [mem_firstKeys, mem_firstKeys]
  exact not_congr (h.within key).eq_nil_iff

theorem takenValue_eq (h : SameTaken es others) : takenValue es = takenValue others := by
  have hsum := (h.movements.map fun m => m.2.toRat).sum_eq
  rw [List.map_map, List.map_map] at hsum
  exact hsum

theorem keeps_eq (h : SameTaken es others) (spec : Spec) :
    spec.keeps levels es = spec.keeps levels others := by
  induction levels generalizing es others with
  | zero => rw [Spec.keeps, Spec.keeps, h.takenValue_eq]
  | succ levels ih =>
      rw [Spec.keeps, Spec.keeps, h.firstKeys.any_eq]
      simp only [ih (h.within _)]

/-- The same groups are left below both, in whatever order. -/
theorem keptKeys_perm (h : SameTaken es others) (spec : Spec) :
    (spec.keptKeys levels es).Perm (spec.keptKeys levels others) := by
  unfold Spec.keptKeys
  simp only [(h.within _).keeps_eq spec]
  exact h.firstKeys.filter _

theorem worth_eq (h : SameTaken es others) (spec : Spec) :
    spec.worth levels es = spec.worth levels others := by
  induction levels generalizing es others with
  | zero => exact h.takenValue_eq
  | succ levels ih =>
      rw [Spec.worth, Spec.worth, ((h.keptKeys_perm spec).map _).sum_eq]
      simp only [ih (h.within _)]

end SameTaken

end Bookkeeping.Subtotal
