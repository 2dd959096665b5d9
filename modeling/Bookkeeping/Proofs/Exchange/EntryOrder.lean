import Bookkeeping.Proofs.Exchange.Resolution

set_option autoImplicit false

/-! # Quotes in any order

Quotes may be added long after their day, and a day may be quoted again. Under each base currency
the entries still go up by date, and those of one day stand in the order in which they were added.
So a table finds the latest quote, and of the quotes of one day the one that was added last.

Where no day is quoted twice, the order of adding no longer matters: the latest quote is then the
one with the greatest date, and that is told by the quotes that there are. -/

namespace Bookkeeping

/-! ## Entries of one day -/

namespace RateTable

open PriceHistory (insertEntry insertEntry_split)

/-- An entry stands behind the other ones of its day. -/
theorem filter_date_insertEntry {entries : List RateEntry}
    (hsorted : entries.Pairwise fun a b => a.date ≤ b.date) (e : RateEntry) (d : Date) :
    (insertEntry e entries).filter (·.date = d) =
      entries.filter (·.date = d) ++ if e.date = d then [e] else [] := by
  by_cases hd : e.date = d
  · obtain ⟨front, back, rfl, hinsert, -, hback⟩ := insertEntry_split hsorted e
    have hlater : back.filter (·.date = d) = [] := by
      refine List.filter_eq_nil_iff.2 fun b hb => ?_
      have hlt := hback b hb
      rw [hd] at hlt
      simpa using fun heq : b.date = d => Int.lt_irrefl _ (heq ▸ hlt)
    rw [hinsert, if_pos hd, List.filter_append, List.filter_append,
      List.filter_cons_of_pos (by simpa using hd), hlater, List.append_nil]
  · rw [if_neg hd, List.append_nil]
    exact filter_insertEntry (by simpa using hd) entries

theorem filter_date_entriesFor (base : String) (quotes : List Quote) (d : Date) :
    (entriesFor base quotes).filter (·.date = d) =
      (quotes.filter fun q => q.base = base ∧ q.date = d).map entryOf := by
  induction quotes using List.reverseRecOn with
  | nil => rfl
  | append_singleton quotes q ih =>
      rw [entriesFor_append_singleton, List.filter_append, List.map_append, ← ih]
      by_cases hbase : q.base = base
      · rw [if_pos hbase, filter_date_insertEntry (sorted_entriesFor base quotes)]
        by_cases hd : q.date = d <;> simp [entryOf, hbase, hd]
      · simp [hbase]

end RateTable

/-! ## Quotes of different days -/

/-- What a quote tells the price of, and for which day. -/
def Quote.key (q : Quote) : String × String × Date := (q.base, q.quote, q.date)

theorem Quote.Tells.key_eq {q other : Quote} {base quote : String} {date : Option Date}
    (hq : q.Tells base quote date) (hother : other.Tells base quote date)
    (hdate : other.date = q.date) : other.key = q.key := by
  obtain ⟨hbase, hquote, -⟩ := hq
  obtain ⟨hbase', hquote', -⟩ := hother
  rw [key, key, hbase, hbase', hquote, hquote', hdate]

section

variable {quotes others : List Quote} {base quote : String} {date : Option Date}

/-- Where no day is quoted twice, the latest quote is the one with the greatest date. -/
theorem isLatest_iff (hkeys : (quotes.map Quote.key).Nodup) {q : Quote} :
    IsLatest quotes base quote date q ↔ q ∈ quotes ∧ q.Tells base quote date ∧
      ∀ other ∈ quotes, other.Tells base quote date → other.date ≤ q.date := by
  constructor
  · exact fun h => ⟨h.mem, h.tells, fun other => h.le⟩
  · rintro ⟨hmem, htells, hle⟩
    obtain ⟨before, after, rfl⟩ := List.append_of_mem hmem
    refine ⟨htells, before, after, rfl, fun other hother => hle other (by simp [hother]), ?_⟩
    intro other hother htellsOther
    have hother' : other.date ≤ q.date := hle other (by simp [hother]) htellsOther
    refine Int.lt_iff_le_and_ne.2 ⟨hother', fun hday => ?_⟩
    -- a quote of the same day would have the same key
    rw [List.map_append, List.map_cons] at hkeys
    have hkey : q.key ∉ after.map Quote.key :=
      (List.nodup_cons.1 (List.nodup_append.1 hkeys).2.1).1
    exact hkey (List.mem_map.2 ⟨other, hother, htells.key_eq htellsOther (Date.key_injective hday)⟩)

/-- Which quote is the latest does not depend on the order of adding. -/
theorem isLatest_iff_of_perm (hperm : quotes.Perm others) (hkeys : (quotes.map Quote.key).Nodup)
    {q : Quote} : IsLatest quotes base quote date q ↔ IsLatest others base quote date q := by
  have hkeys' : (others.map Quote.key).Nodup := (hperm.map _).nodup_iff.1 hkeys
  rw [isLatest_iff hkeys, isLatest_iff hkeys']
  simp only [hperm.mem_iff]

theorem Leg.of_perm (hperm : quotes.Perm others) (hkeys : (quotes.map Quote.key).Nodup)
    {r : Decimal} (h : Leg quotes date base quote r) : Leg others date base quote r := by
  cases h with
  | quoted hq => exact .quoted ((isLatest_iff_of_perm hperm hkeys).1 hq)
  | inverse hnone hq hr hvalue =>
      refine .inverse (fun q hmem => hnone q (hperm.mem_iff.2 hmem)) ?_ hr hvalue
      exact (isLatest_iff_of_perm hperm hkeys).1 hq

end

/-! ## What a table answers -/

namespace RateTable

open PriceHistory (insertEntry_split)

/-- Whether a table keeps quotes by date and answers with the latest of them. -/
structure AnswersByDate (quotes : List Quote) (table : RateTable) : Prop where
  /-- The entries of each base currency go up by date. -/
  sorted : ∀ base, (table.entriesOf base).Pairwise fun a b => a.date ≤ b.date
  /-- Those of one day stand in the order in which their quotes were added. -/
  in_order : ∀ base d, (table.entriesOf base).filter (·.date = d) =
    (quotes.filter fun q => q.base = base ∧ q.date = d).map entryOf
  /-- One more quote is put between those that are not dated later and those that are. -/
  entered : ∀ q : Quote, ∃ front back, table.entriesOf q.base = front ++ back ∧
    (∀ a ∈ front, a.date ≤ q.date) ∧ (∀ b ∈ back, q.date < b.date) ∧
    (table.add q).entriesOf q.base = front ++ entryOf q :: back
  /-- Where some quote tells the price up to a date, the latest one does. -/
  latest : ∀ base quote date, base ≠ quote → (∃ q ∈ quotes, q.Tells base quote date) →
    ∃ q, IsLatest quotes base quote date q ∧ table.rate? base quote date = some q.price

variable {quotes others : List Quote} {table other : RateTable} {base quote : String}
  {date : Option Date}

theorem answersByDate (h : GainsAll quotes .empty table) : AnswersByDate quotes table where
  sorted := table.sorted_entriesOf
  in_order base d := by
    rw [h.entriesOf]
    exact filter_date_entriesFor base quotes d
  entered q := by
    obtain ⟨front, back, hsplit, hinsert, hfront, hback⟩ :=
      insertEntry_split (table.sorted_entriesOf q.base) (entryOf q)
    refine ⟨front, back, hsplit, hfront, hback, ?_⟩
    rw [(Gains.add table).entriesOf, if_pos rfl, hinsert]
  latest base quote date hne htold := by
    obtain ⟨q, hq⟩ := exists_isLatest htold
    exact ⟨q, hq, rate?_of_leg h hne (.quoted hq)⟩

/-- A leg does not depend on the order of adding. -/
theorem rate?_of_perm (h : GainsAll quotes .empty table) (h' : GainsAll others .empty other)
    (hperm : quotes.Perm others) (hkeys : (quotes.map Quote.key).Nodup)
    (hleg : Resolvable quotes date base quote) :
    other.rate? base quote date = table.rate? base quote date := by
  by_cases hne : base = quote
  · rw [rate?, rate?, if_pos hne, if_pos hne]
  · obtain ⟨r, hr⟩ := exists_leg_iff.2 hleg
    rw [rate?_of_leg h hne hr, rate?_of_leg h' hne (hr.of_perm hperm hkeys)]

/-- Whatever the order of adding, a table keeps its quotes by date, those of one day as they were
    added, and answers with the latest one. Quotes of different days may be added in any order: a
    rate that needs no currency in between is the same. -/
theorem rate?_by_date (h : GainsAll quotes .empty table) :
    AnswersByDate quotes table ∧
    ∀ others other, GainsAll others .empty other → quotes.Perm others →
      (quotes.map Quote.key).Nodup → ∀ base quote date, Resolvable quotes date base quote →
        other.rate? base quote date = table.rate? base quote date :=
  ⟨answersByDate h, fun _ _ h' hperm hkeys _ _ _ hleg => rate?_of_perm h h' hperm hkeys hleg⟩

/-- Quotes among which the older price of the dollar in yuan comes last. -/
def lateQuotes : List Quote :=
  [quoteOn 2 1 "USD" "CNY" 72 1, quoteOn 2 1 "USD" "EUR" 9 1, quoteOn 1 5 "GBP" "CNY" 8 0,
    quoteOn 1 1 "USD" "CNY" 7 0]

/-- The price of the first of February, put right. -/
def correctedQuotes : List Quote := lateQuotes ++ [quoteOn 2 1 "USD" "CNY" 73 1]

theorem rate?_by_date_late :
    AnswersByDate correctedQuotes (ofList correctedQuotes) ∧
      (ofList correctedQuotes).rate? "USD" "CNY" (some ⟨2024, 1, 31, by decide⟩) =
        some ⟨false, 7, 0, by decide, by decide⟩ ∧
      (ofList correctedQuotes).rate? "USD" "CNY" (some ⟨2024, 2, 1, by decide⟩) =
        some ⟨false, 73, 1, by decide, by decide⟩ ∧
      GainsAll lateQuotes .empty (.ofList lateQuotes) ∧
      GainsAll lateQuotes.reverse .empty (.ofList lateQuotes.reverse) ∧
      lateQuotes.Perm lateQuotes.reverse ∧ (lateQuotes.map Quote.key).Nodup ∧
      Resolvable lateQuotes none "CNY" "GBP" ∧
      (ofList lateQuotes.reverse).rate? "CNY" "GBP" none =
        (ofList lateQuotes).rate? "CNY" "GBP" none := by
  have hcorrected := (rate?_by_date (gainsAll_foldl_add correctedQuotes empty)).1
  have hgain : GainsAll lateQuotes .empty (.ofList lateQuotes) := gainsAll_foldl_add _ _
  have hgain' : GainsAll lateQuotes.reverse .empty (.ofList lateQuotes.reverse) :=
    gainsAll_foldl_add _ _
  have hperm : lateQuotes.Perm lateQuotes.reverse := lateQuotes.reverse_perm.symm
  have hkeys : (lateQuotes.map Quote.key).Nodup := by decide +kernel
  have hleg : (ofList lateQuotes).leg? "CNY" "GBP" none =
      some ⟨false, 125, 3, by decide, by decide⟩ := by decide +kernel
  have hresolvable : Resolvable lateQuotes none "CNY" "GBP" :=
    exists_leg_iff.1 ⟨_, (leg?_eq_some_iff hgain).1 hleg⟩
  exact ⟨hcorrected, by decide +kernel, by decide +kernel, hgain, hgain', hperm, hkeys, hresolvable,
    (rate?_by_date hgain).2 _ _ hgain' hperm hkeys _ _ _ hresolvable⟩

end RateTable

end Bookkeeping
