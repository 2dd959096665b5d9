import Bookkeeping.Exchange.Rates
import Bookkeeping.Subtotal.Grouping

set_option autoImplicit false

/-! # Newer quotes never change history

A rate on a day looks at quotes up to that day and at nothing else. `SameUpTo` says what it looks
at: the entries of each base currency up to the day, in their order, and the currencies that are
quoted against another one up to the day, in the order in which currencies are walked. Tables that
agree on these give the same rates, direct, inverse or through a currency in between.

A later quote leaves all of this alone. One step of adding a quote is `Gains`, where a currency
that is new to the table may be walked at any place among the others; a run of steps is
`GainsAll`. -/

namespace Bookkeeping

namespace RateTable

open PriceHistory (insertEntry)

/-! ## What a rate on a day looks at -/

/-- The base currencies with a quote in `base` up to a date, in the order they are walked. -/
def quotedIn (table : RateTable) (base : String) (date : Option Date) : List String :=
  (table.histories.items.filter fun h =>
    h.entries.any fun e => e.currency = base && isUpTo date e).map (·.base)

/-- Whether two tables have the same quotes up to a date. -/
structure SameUpTo (date : Option Date) (t u : RateTable) : Prop where
  entriesOf : ∀ base,
    (t.entriesOf base).filter (isUpTo date) = (u.entriesOf base).filter (isUpTo date)
  quotedIn : ∀ base, t.quotedIn base date = u.quotedIn base date

namespace SameUpTo

variable {date : Option Date} {t u v : RateTable}

theorem refl (t : RateTable) : SameUpTo date t t := ⟨fun _ => rfl, fun _ => rfl⟩

theorem trans (htu : SameUpTo date t u) (huv : SameUpTo date u v) : SameUpTo date t v :=
  ⟨fun base => (htu.entriesOf base).trans (huv.entriesOf base),
    fun base => (htu.quotedIn base).trans (huv.quotedIn base)⟩

theorem direct?_eq (h : SameUpTo date t u) (base quote : String) :
    t.direct? base quote date = u.direct? base quote date := by
  -- the search for the last entry passes over what is dated later
  have hsearch (entries : List RateEntry) :
      entries.reverse.find? (fun e => e.currency = quote && isUpTo date e) =
        (entries.filter (isUpTo date)).reverse.find? (fun e => e.currency = quote) := by
    rw [← List.filter_reverse, List.find?_filter]
    refine congrArg (fun p => List.find? p _) (funext fun e => ?_)
    simp [Bool.and_comm]
  rw [direct?, direct?, hsearch, hsearch, h.entriesOf]

theorem leg?_eq (h : SameUpTo date t u) (base quote : String) :
    t.leg? base quote date = u.leg? base quote date := by
  rw [leg?, leg?, h.direct?_eq, h.direct?_eq]

theorem neighbours_eq (h : SameUpTo date t u) (base : String) :
    t.neighbours base date = u.neighbours base date := by
  have hparts (table : RateTable) : table.neighbours base date =
      ((table.entriesOf base).filter (isUpTo date)).map (·.currency) ++
        table.quotedIn base date := rfl
  rw [hparts, hparts, h.entriesOf, h.quotedIn]

theorem chained?_eq (h : SameUpTo date t u) (base quote : String) :
    t.chained? base quote date = u.chained? base quote date := by
  unfold chained?
  rw [h.neighbours_eq]
  congr 1
  funext via
  rw [h.leg?_eq, h.leg?_eq]

/-- Tables that have the same quotes up to a date give the same rates for it. -/
theorem rate?_eq (h : SameUpTo date t u) (base quote : String) :
    t.rate? base quote date = u.rate? base quote date := by
  unfold rate?
  rw [h.leg?_eq, h.chained?_eq]

end SameUpTo

/-! ## One more quote -/

/-- One more quote in a table. -/
inductive Gains (q : Quote) : RateTable → RateTable → Prop where
  /-- The quote stands under its base currency, which is walked last if it is new. -/
  | add (table : RateTable) : Gains q table (table.add q)
  /-- The base currency is new and may be walked at any place. -/
  | among {t u : RateTable} (front back : List PriceHistory)
      (ht : t.histories.items = front ++ back)
      (hu : u.histories.items = front ++ .single q.base (entryOf q) :: back) : Gains q t u

/-- Quotes added to a table one after another. -/
inductive GainsAll : List Quote → RateTable → RateTable → Prop where
  | nil (table : RateTable) : GainsAll [] table table
  | cons {q : Quote} {rest : List Quote} {t u v : RateTable} (hstep : Gains q t u)
      (hrest : GainsAll rest u v) : GainsAll (q :: rest) t v

/-- Quotes that are added to a table are gained, new currencies being walked last. -/
theorem gainsAll_foldl_add (quotes : List Quote) (table : RateTable) :
    GainsAll quotes table (quotes.foldl add table) := by
  induction quotes generalizing table with
  | nil => exact .nil table
  | cons q rest ih => exact .cons (.add table) (ih (table.add q))

variable {date : Option Date} {q : Quote}

theorem find?_add (table : RateTable) (q : Quote) (base : String) :
    (table.add q).histories.find? base = if q.base = base then
      some ((table.histories.find? base).elim (.single q.base (entryOf q)) (·.insert (entryOf q)))
      else table.histories.find? base :=
  Keyed.find?_upsert (f := (·.insert (entryOf q))) table.histories (fun _ h => h) base

/-- One more quote is one more entry under its base currency. -/
theorem Gains.entriesOf {t u : RateTable} (h : Gains q t u) (base : String) :
    u.entriesOf base =
      if q.base = base then insertEntry (entryOf q) (t.entriesOf base) else t.entriesOf base := by
  unfold RateTable.entriesOf
  cases h with
  | add =>
      rw [find?_add]
      split
      · cases t.histories.find? base <;> rfl
      · rfl
  | among front back ht hu =>
      have hnone : t.histories.find? q.base = none := Keyed.find?_eq_none_of_splits ht hu
      have hfind : u.histories.find? base = if q.base = base then
          some (.single q.base (entryOf q)) else t.histories.find? base :=
        Keyed.find?_of_splits ht hu base
      rw [hfind]
      split
      · next hbase =>
          rw [← hbase, hnone]
          rfl
      · rfl

/-- An entry that a test passes over is passed over wherever it is put in. -/
theorem filter_insertEntry {p : RateEntry → Bool} {e : RateEntry} (h : p e = false)
    (entries : List RateEntry) : (insertEntry e entries).filter p = entries.filter p := by
  induction entries with
  | nil => simp [insertEntry, h]
  | cons x rest ih =>
      rw [insertEntry]
      split
      · rw [List.filter_cons, List.filter_cons, ih]
      · rw [List.filter_cons_of_neg (by simp [h])]

theorem any_insertEntry {p : RateEntry → Bool} {e : RateEntry} (h : p e = false)
    (entries : List RateEntry) : (insertEntry e entries).any p = entries.any p := by
  induction entries with
  | nil => simp [insertEntry, h]
  | cons x rest ih =>
      rw [insertEntry]
      split
      · rw [List.any_cons, List.any_cons, ih]
      · rw [List.any_cons, h, Bool.false_or]

/-- The currencies with an entry that passes a test are those from before, if a new entry does not
    pass it. -/
theorem filter_any_upsertIn {p : RateEntry → Bool} {e : RateEntry} (h : p e = false) (base : String)
    (items : List PriceHistory) :
    ((Keyed.upsertIn PriceHistory.base (.single base e) (·.insert e) items).filter
      (·.entries.any p)).map (·.base) = (items.filter (·.entries.any p)).map (·.base) := by
  induction items with
  | nil => simp [Keyed.upsertIn, PriceHistory.single, h]
  | cons x rest ih =>
      rw [Keyed.upsertIn]
      split
      · rw [List.filter_cons, List.filter_cons, PriceHistory.insert, any_insertEntry h]
        split <;> rfl
      · rw [List.filter_cons, List.filter_cons]
        split
        · rw [List.map_cons, List.map_cons, ih]
        · exact ih

/-- A quote that is dated later changes nothing up to a date. -/
theorem Gains.sameUpTo {t u : RateTable} (h : Gains q t u)
    (hlater : isUpTo date (entryOf q) = false) : SameUpTo date t u where
  entriesOf base := by
    rw [h.entriesOf]
    split
    · rw [filter_insertEntry hlater]
    · rfl
  quotedIn base := by
    have htest : (decide ((entryOf q).currency = base) && isUpTo date (entryOf q)) = false := by
      rw [hlater, Bool.and_false]
    cases h with
    | add => exact (filter_any_upsertIn htest q.base t.histories.items).symm
    | among front back ht hu =>
        unfold quotedIn
        rw [ht, hu, List.filter_append, List.filter_append, List.filter_cons_of_neg]
        simp [PriceHistory.single, htest]

theorem GainsAll.sameUpTo {quotes : List Quote} {t u : RateTable} (h : GainsAll quotes t u)
    (hlater : ∀ q ∈ quotes, isUpTo date (entryOf q) = false) : SameUpTo date t u := by
  induction h with
  | nil table => exact .refl table
  | cons hstep _ ih =>
      have hfirst := hstep.sameUpTo (hlater _ List.mem_cons_self)
      exact hfirst.trans (ih fun q hq => hlater q (List.mem_cons_of_mem _ hq))

end RateTable

/-! ## Subtotals at rates of the past -/

namespace Subtotal

/-- A subtotal depends on the rates only through the amounts that its postings add. -/
theorem ofPostings_congr {spec : Spec} {rates others : RateLookup}
    {entries : List (Posting × Decimal)}
    (h : ∀ e ∈ entries, spec.amountOf rates e.1 e.2 = spec.amountOf others e.1 e.2) :
    ofPostings spec rates entries = ofPostings spec others entries := by
  have henter (all : Grouping) : entries.foldlM (enterPosting spec rates) all =
      entries.foldlM (enterPosting spec others) all := by
    induction entries generalizing all with
    | nil => rfl
    | cons e rest ih =>
        have hstep : enterPosting spec rates all e = enterPosting spec others all e := by
          obtain ⟨p, amount⟩ := e
          have hamount : spec.amountOf rates p amount = spec.amountOf others p amount :=
            h _ List.mem_cons_self
          rw [enterPosting, enterPosting, hamount]
        rw [List.foldlM_cons, List.foldlM_cons, hstep]
        congr 1
        funext next
        exact ih (fun x hx => h x (List.mem_cons_of_mem e hx)) next
  rw [ofPostings, ofPostings, henter]

/-- Where every rate that is asked for is one of a date on which two lookups agree, the subtotals
    are the same. -/
theorem ofPostings_congr_rates {spec : Spec} {c : Conversion} {rates others : RateLookup}
    {entries : List (Posting × Decimal)} (hconversion : spec.conversion = some c)
    (h : ∀ e ∈ entries, ∀ base quote,
      rates base quote (c.date.or e.1.date) = others base quote (c.date.or e.1.date)) :
    ofPostings spec rates entries = ofPostings spec others entries := by
  refine ofPostings_congr fun e he => ?_
  rw [Spec.amountOf, Spec.amountOf, hconversion]
  dsimp only
  rw [RateLookup.convert, RateLookup.convert, h e he]

end Subtotal

/-! ## History -/

namespace RateTable

/-- Quotes that are dated after a day change no rate of that day or an earlier one. So they change
    no subtotal that is converted at rates of such days, be it of a given day or of the days of
    the postings: it comes out the same or fails in the same way. -/
theorem newer_quotes_keep_history {d : Date} {quotes : List Quote} {before after : RateTable}
    (hnewer : ∀ q ∈ quotes, d < q.date) (hgain : GainsAll quotes before after) :
    (∀ base quote d', d' ≤ d →
      after.rate? base quote (some d') = before.rate? base quote (some d')) ∧
    ∀ (spec : Subtotal.Spec) (c : Subtotal.Conversion) (entries : List (Posting × Decimal)),
      spec.conversion = some c →
      ((∃ d', c.date = some d' ∧ d' ≤ d) ∨
        c.date = none ∧ ∀ e ∈ entries, ∃ d', e.1.date = some d' ∧ d' ≤ d) →
      Subtotal.ofPostings spec after.rate? entries =
        Subtotal.ofPostings spec before.rate? entries := by
  have hrates : ∀ base quote d', d' ≤ d →
      after.rate? base quote (some d') = before.rate? base quote (some d') := by
    intro base quote d' hd'
    have hlater : ∀ q ∈ quotes, isUpTo (some d') (entryOf q) = false := by
      intro q hq
      have hlt : d' < q.date := Int.lt_of_le_of_lt hd' (hnewer q hq)
      exact decide_eq_false (Int.not_le.2 hlt)
    exact ((hgain.sameUpTo hlater).rate?_eq base quote).symm
  refine ⟨hrates, fun spec c entries hconversion hdates => ?_⟩
  refine Subtotal.ofPostings_congr_rates hconversion fun e he base quote => ?_
  rcases hdates with ⟨d', hd', hle⟩ | ⟨hnone, hdated⟩
  · rw [hd', Option.some_or]
    exact hrates base quote d' hle
  · obtain ⟨d', hd', hle⟩ := hdated e he
    rw [hnone, hd', Option.none_or]
    exact hrates base quote d' hle

/-- A quote of a day in 2024. -/
def quoteOn (month day : Nat) (base quote : String) (coefficient : Int) (scale : Nat) : Quote :=
  ⟨(Date.ofParts? 2024 month day).getD .last, base, quote,
    (Decimal.ofParts? coefficient scale).getD .zero⟩

/-- In January the euro is quoted in dollars, and the dollar in yuan. -/
def january : RateTable :=
  .ofList [quoteOn 1 1 "EUR" "USD" 11 1, quoteOn 1 1 "USD" "CNY" 7 0]

/-- In February the yen is quoted in euros, and the euro in yuan. -/
def februaryQuotes : List Quote :=
  [quoteOn 2 1 "JPY" "EUR" 6 3, quoteOn 2 2 "EUR" "CNY" 8 0]

/-- The table with the quotes of February, where the yen is walked first. -/
def february : RateTable :=
  (⟨.single "JPY" (entryOf (quoteOn 2 1 "JPY" "EUR" 6 3)) :: january.histories.items,
    by decide⟩ : RateTable).add (quoteOn 2 2 "EUR" "CNY" 8 0)

theorem newer_quotes_keep_history_january :
    (∀ q ∈ februaryQuotes, (⟨2024, 1, 31, by decide⟩ : Date) < q.date) ∧
      GainsAll februaryQuotes january february ∧
      february.rate? "EUR" "CNY" (some ⟨2024, 1, 20, by decide⟩) =
        some ⟨false, 77, 1, by decide, by decide⟩ ∧
      ∀ entries,
        Subtotal.ofPostings ⟨none, .all, .none, some ⟨"CNY", some ⟨2024, 1, 20, by decide⟩⟩⟩
            february.rate? entries =
          Subtotal.ofPostings ⟨none, .all, .none, some ⟨"CNY", some ⟨2024, 1, 20, by decide⟩⟩⟩
            january.rate? entries := by
  have hnewer : ∀ q ∈ februaryQuotes, (⟨2024, 1, 31, by decide⟩ : Date) < q.date := by decide
  have hgain : GainsAll februaryQuotes january february :=
    .cons (.among [] january.histories.items rfl rfl) (gainsAll_foldl_add [_] _)
  obtain ⟨hrates, hsubtotals⟩ := newer_quotes_keep_history hnewer hgain
  have hrate : january.rate? "EUR" "CNY" (some ⟨2024, 1, 20, by decide⟩) =
      some ⟨false, 77, 1, by decide, by decide⟩ := by decide +kernel
  exact ⟨hnewer, hgain, (hrates "EUR" "CNY" _ (by decide)).trans hrate,
    fun entries => hsubtotals _ _ entries rfl (.inl ⟨_, rfl, by decide⟩)⟩

end RateTable

end Bookkeeping
