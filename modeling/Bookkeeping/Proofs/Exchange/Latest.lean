import Mathlib.Data.List.Induction
import Bookkeeping.Proofs.Exchange.History

set_option autoImplicit false

/-! # The latest quote

A table keeps the entries of a base currency by date, so the last entry up to a date that is in a
currency is the latest quote: no other one is dated later, and of those of one day it was added
last. `IsLatest` says that of the quotes in the order in which they were added, `entriesFor` is what
they come to under a base currency, whatever the order in which currencies are walked. Both change
by one quote at a time, so an induction on the quotes shows that one is found in the other. -/

namespace Bookkeeping

/-- Whether a quote tells the price of a currency in another, up to a date if one is given. -/
def Quote.Tells (q : Quote) (base quote : String) (date : Option Date) : Prop :=
  q.base = base ∧ q.quote = quote ∧ ∀ d ∈ date, q.date ≤ d

/-- The latest quote of a currency in another up to a date: none is dated later, and none of those
    added after it is dated on the same day. -/
structure IsLatest (quotes : List Quote) (base quote : String) (date : Option Date) (q : Quote) :
    Prop where
  tells : q.Tells base quote date
  place : ∃ before after, quotes = before ++ q :: after ∧
    (∀ other ∈ before, other.Tells base quote date → other.date ≤ q.date) ∧
    ∀ other ∈ after, other.Tells base quote date → other.date < q.date

namespace IsLatest

variable {quotes : List Quote} {base quote : String} {date : Option Date} {q new : Quote}

theorem mem (h : IsLatest quotes base quote date q) : q ∈ quotes := by
  obtain ⟨before, after, rfl, -, -⟩ := h.place
  simp

theorem le (h : IsLatest quotes base quote date q) {other : Quote} (hmem : other ∈ quotes)
    (htells : other.Tells base quote date) : other.date ≤ q.date := by
  obtain ⟨before, after, rfl, hbefore, hafter⟩ := h.place
  rcases List.mem_append.1 hmem with hmem | hmem
  · exact hbefore other hmem htells
  · rcases List.mem_cons.1 hmem with rfl | hmem
    · exact Int.le_refl _
    · exact Int.le_of_lt (hafter other hmem htells)

/-- A quote that is added last is the latest one unless another one is dated later. -/
theorem of_last (htells : new.Tells base quote date)
    (hle : ∀ other ∈ quotes, other.Tells base quote date → other.date ≤ new.date) :
    IsLatest (quotes ++ [new]) base quote date new :=
  ⟨htells, quotes, [], rfl, hle, by simp⟩

/-- A quote stays the latest one if what is added tells nothing or is dated earlier. -/
theorem append_singleton (h : IsLatest quotes base quote date q)
    (hnew : new.Tells base quote date → new.date < q.date) :
    IsLatest (quotes ++ [new]) base quote date q := by
  obtain ⟨before, after, rfl, hbefore, hafter⟩ := h.place
  refine ⟨h.tells, before, after ++ [new], by simp, hbefore, ?_⟩
  intro other hother
  rcases List.mem_append.1 hother with hother | hother
  · exact hafter other hother
  · rw [List.mem_singleton.1 hother]
    exact hnew

/-- The latest quote is the one added last, or it was the latest one before. -/
theorem of_append_singleton (h : IsLatest (quotes ++ [new]) base quote date q) :
    q = new ∨ IsLatest quotes base quote date q ∧
      (new.Tells base quote date → new.date < q.date) := by
  obtain ⟨before, after, hplace, hbefore, hafter⟩ := h.place
  rcases List.eq_nil_or_concat after with rfl | ⟨front, last, rfl⟩
  · obtain ⟨-, hlast⟩ := List.append_inj' hplace rfl
    exact .inl (List.singleton_inj.1 hlast).symm
  · rw [List.concat_eq_append] at hplace hafter
    rw [← List.cons_append, ← List.append_assoc] at hplace
    obtain ⟨rfl, hlast⟩ := List.append_inj' hplace rfl
    obtain rfl := List.singleton_inj.1 hlast
    refine .inr ⟨⟨h.tells, before, front, rfl, hbefore, ?_⟩, hafter new (by simp)⟩
    exact fun other hother => hafter other (List.mem_append_left _ hother)

end IsLatest

namespace RateTable

open PriceHistory (insertEntry insertEntry_split)

/-! ## Entries by date -/

/-- The last entry that a test finds, when one more is put among the others: that one, unless the
    test fails it or finds one that is dated later. -/
theorem find?_insertEntry {entries : List RateEntry}
    (hsorted : entries.Pairwise fun a b => a.date ≤ b.date) (e : RateEntry)
    (p : RateEntry → Bool) :
    (insertEntry e entries).reverse.find? p =
      if p e ∧ ∀ x ∈ entries, p x = true → x.date ≤ e.date then some e
      else entries.reverse.find? p := by
  obtain ⟨front, back, rfl, hinsert, hfront, hback⟩ := insertEntry_split hsorted e
  rw [hinsert]
  simp only [List.reverse_append, List.reverse_cons, List.find?_append]
  cases hlater : back.reverse.find? p with
  | some x =>
      have hx : x ∈ back := List.mem_reverse.1 (List.mem_of_find?_eq_some hlater)
      have hnot : ¬ ∀ x ∈ front ++ back, p x = true → x.date ≤ e.date := fun h =>
        Int.not_le.2 (hback x hx) (h x (List.mem_append_right _ hx) (List.find?_some hlater))
      rw [if_neg fun h => hnot h.2]
      simp
  | none =>
      have hall : ∀ x ∈ front ++ back, p x = true → x.date ≤ e.date := by
        intro x hx hp
        rcases List.mem_append.1 hx with hx | hx
        · exact hfront x hx
        · exact absurd hp (List.find?_eq_none.1 hlater x (List.mem_reverse.2 hx))
      by_cases hp : p e = true
      · rw [if_pos ⟨hp, hall⟩]
        simp [hp]
      · simp [hp]

/-- The entries that quotes come to under a base currency. -/
def entriesFor (base : String) (quotes : List Quote) : List RateEntry :=
  (ofList quotes).entriesOf base

/-- The entries of a base currency do not depend on the order in which currencies are walked. -/
theorem GainsAll.entriesOf {quotes : List Quote} {table : RateTable}
    (h : GainsAll quotes .empty table) (base : String) :
    table.entriesOf base = entriesFor base quotes := by
  suffices hfrom : ∀ {quotes : List Quote} {t u t' u' : RateTable}, GainsAll quotes t u →
      GainsAll quotes t' u' → t.entriesOf base = t'.entriesOf base →
      u.entriesOf base = u'.entriesOf base from
    hfrom h (gainsAll_foldl_add quotes .empty) rfl
  intro quotes t u t' u' h h' hstart
  induction h generalizing t' with
  | nil =>
      cases h'
      exact hstart
  | cons hstep _ ih =>
      obtain _ | ⟨hstep', hrest'⟩ := h'
      exact ih hrest' (by rw [hstep.entriesOf, hstep'.entriesOf, hstart])

section

variable {quotes : List Quote} {base quote : String} {date : Option Date}

@[simp] theorem entriesFor_nil (base : String) : entriesFor base [] = [] := rfl

theorem entriesFor_append_singleton (base : String) (quotes : List Quote) (q : Quote) :
    entriesFor base (quotes ++ [q]) =
      if q.base = base then insertEntry (entryOf q) (entriesFor base quotes)
      else entriesFor base quotes := by
  rw [entriesFor, ofList, List.foldl_append]
  exact (Gains.add (ofList quotes)).entriesOf base

theorem sorted_entriesFor (base : String) (quotes : List Quote) :
    (entriesFor base quotes).Pairwise fun a b => a.date ≤ b.date :=
  (ofList quotes).sorted_entriesOf base

theorem mem_entriesFor {e : RateEntry} :
    e ∈ entriesFor base quotes ↔ ∃ q ∈ quotes, q.base = base ∧ entryOf q = e := by
  induction quotes using List.reverseRecOn with
  | nil => simp
  | append_singleton quotes q ih =>
      have hinsert : e ∈ insertEntry (entryOf q) (entriesFor base quotes) ↔
          e = entryOf q ∨ e ∈ entriesFor base quotes := by
        obtain ⟨front, back, hsplit, hinsert, -, -⟩ :=
          insertEntry_split (sorted_entriesFor base quotes) (entryOf q)
        rw [hinsert, hsplit]
        simp [or_left_comm]
      rw [entriesFor_append_singleton]
      split
      · next hbase =>
          rw [hinsert, ih]
          simp [or_and_right, exists_or, hbase, or_comm, eq_comm]
      · next hbase =>
          rw [ih]
          simp [or_and_right, exists_or, hbase]

/-- What a search for an entry tests is whether its quote tells the price. -/
theorem tells_iff {q : Quote} : q.Tells base quote date ↔
    q.base = base ∧ (decide ((entryOf q).currency = quote) && isUpTo date (entryOf q)) = true := by
  unfold Quote.Tells entryOf isUpTo
  rw [Bool.and_eq_true, decide_eq_true_iff]
  cases date <;> simp

/-- The last of the entries up to a date that are in a currency. -/
def latest? (entries : List RateEntry) (quote : String) (date : Option Date) :
    Option RateEntry :=
  entries.reverse.find? fun e => e.currency = quote && isUpTo date e

theorem forall_tells_iff {p : RateEntry → Prop} :
    (∀ e ∈ entriesFor base quotes, (decide (e.currency = quote) && isUpTo date e) = true → p e) ↔
      ∀ q ∈ quotes, q.Tells base quote date → p (entryOf q) := by
  constructor
  · intro h q hq htells
    obtain ⟨hbase, htest⟩ := tells_iff.1 htells
    exact h _ (mem_entriesFor.2 ⟨q, hq, hbase, rfl⟩) htest
  · intro h e he htest
    obtain ⟨q, hq, hbase, rfl⟩ := mem_entriesFor.1 he
    exact h q hq (tells_iff.2 ⟨hbase, htest⟩)

/-- A quote that is added last is found, unless another one is dated later. -/
theorem latest?_of_last {new : Quote} (htells : new.Tells base quote date)
    (hle : ∀ other ∈ quotes, other.Tells base quote date → other.date ≤ new.date) :
    latest? (entriesFor base (quotes ++ [new])) quote date = some (entryOf new) := by
  obtain ⟨hbase, htest⟩ := tells_iff.1 htells
  rw [latest?, entriesFor_append_singleton, if_pos hbase,
    find?_insertEntry (sorted_entriesFor base quotes), if_pos ⟨htest, forall_tells_iff.2 hle⟩]

/-- A quote that tells nothing, or is dated earlier than another one, is not found. -/
theorem latest?_of_not_last {new : Quote}
    (hnot : ¬ (new.Tells base quote date ∧
      ∀ other ∈ quotes, other.Tells base quote date → other.date ≤ new.date)) :
    latest? (entriesFor base (quotes ++ [new])) quote date =
      latest? (entriesFor base quotes) quote date := by
  rw [latest?, entriesFor_append_singleton]
  split
  · next hbase =>
      rw [find?_insertEntry (sorted_entriesFor base quotes), if_neg, latest?]
      rintro ⟨htest, hle⟩
      exact hnot ⟨tells_iff.2 ⟨hbase, htest⟩, forall_tells_iff.1 hle⟩
  · rfl

/-- The last entry up to a date that is in a currency is that of the latest quote. -/
theorem latest?_entriesFor {e : RateEntry} :
    latest? (entriesFor base quotes) quote date = some e ↔
      ∃ q, IsLatest quotes base quote date q ∧ entryOf q = e := by
  induction quotes using List.reverseRecOn with
  | nil =>
      constructor
      · intro h
        cases h
      · rintro ⟨q, hq, -⟩
        exact absurd hq.mem List.not_mem_nil
  | append_singleton quotes new ih =>
      by_cases hlast : new.Tells base quote date ∧
          ∀ other ∈ quotes, other.Tells base quote date → other.date ≤ new.date
      · obtain ⟨htells, hle⟩ := hlast
        rw [latest?_of_last htells hle, Option.some.injEq]
        constructor
        · exact fun h => ⟨new, .of_last htells hle, h⟩
        · rintro ⟨q, hq, rfl⟩
          rcases hq.of_append_singleton with rfl | ⟨hold, hlt⟩
          · rfl
          · exact absurd (hle q hold.mem hold.tells) (Int.not_le.2 (hlt htells))
      · rw [latest?_of_not_last hlast, ih]
        constructor
        · rintro ⟨q, hq, rfl⟩
          refine ⟨q, hq.append_singleton fun htells => ?_, rfl⟩
          -- some other quote is dated later, and no quote is dated later than the latest one
          by_contra hlt
          refine hlast ⟨htells, fun other hother htellsOther => ?_⟩
          exact Int.le_trans (hq.le hother htellsOther) (Int.not_lt.1 hlt)
        · rintro ⟨q, hq, rfl⟩
          rcases hq.of_append_singleton with rfl | ⟨hold, -⟩
          · refine absurd ⟨hq.tells, fun other hother => hq.le ?_⟩ hlast
            exact List.mem_append_left _ hother
          · exact ⟨q, hold, rfl⟩

theorem exists_isLatest (h : ∃ q ∈ quotes, q.Tells base quote date) :
    ∃ q, IsLatest quotes base quote date q := by
  cases hlast : latest? (entriesFor base quotes) quote date with
  | some e =>
      obtain ⟨q, hq, -⟩ := latest?_entriesFor.1 hlast
      exact ⟨q, hq⟩
  | none =>
      obtain ⟨q, hmem, htells⟩ := h
      obtain ⟨hbase, htest⟩ := tells_iff.1 htells
      have hentry : entryOf q ∈ entriesFor base quotes := mem_entriesFor.2 ⟨q, hmem, hbase, rfl⟩
      exact absurd htest (List.find?_eq_none.1 hlast _ (List.mem_reverse.2 hentry))

end

/-! ## Prices of a table -/

section

variable {quotes : List Quote} {table : RateTable} {base quote : String} {date : Option Date}

/-- The price that a table finds is that of the latest quote. -/
theorem direct?_eq_some_iff (h : GainsAll quotes .empty table) {price : Decimal} :
    table.direct? base quote date = some price ↔
      ∃ q, IsLatest quotes base quote date q ∧ q.price = price := by
  rw [direct?, h.entriesOf, Option.map_eq_some_iff]
  constructor
  · rintro ⟨e, he, rfl⟩
    obtain ⟨q, hq, rfl⟩ := latest?_entriesFor.1 he
    exact ⟨q, hq, rfl⟩
  · rintro ⟨q, hq, rfl⟩
    exact ⟨entryOf q, latest?_entriesFor.2 ⟨q, hq, rfl⟩, rfl⟩

/-- A table finds no price exactly where no quote tells one. -/
theorem direct?_eq_none_iff (h : GainsAll quotes .empty table) :
    table.direct? base quote date = none ↔ ∀ q ∈ quotes, ¬ q.Tells base quote date := by
  constructor
  · intro hnone q hmem htells
    obtain ⟨q, hq⟩ := exists_isLatest ⟨q, hmem, htells⟩
    rw [(direct?_eq_some_iff h).2 ⟨q, hq, rfl⟩] at hnone
    cases hnone
  · intro hnone
    cases hprice : table.direct? base quote date with
    | none => rfl
    | some price =>
        obtain ⟨q, hq, -⟩ := (direct?_eq_some_iff h).1 hprice
        exact absurd hq.tells (hnone q hq.mem)

end

end RateTable

end Bookkeeping
