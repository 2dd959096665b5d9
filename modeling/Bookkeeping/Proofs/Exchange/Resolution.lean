import Bookkeeping.Proofs.Decimal.Inverse
import Bookkeeping.Proofs.Exchange.Latest

set_option autoImplicit false

/-! # Every rate that quotes tell

A leg is the latest price of a currency in another, or else the inverse of the latest opposite one,
and a rate is a leg or the product of two legs through one currency in between. `Leg` and
`Resolvable` say this of quotes, without a table, and `Resolves` is what rates have to be.

A table searches only the neighbours of the base currency. That misses nothing, because a currency
with a first leg is a neighbour: it has an entry under the base currency, or the base currency has
one under it. A neighbour without legs or with a product out of range is passed over, so the search
fails only where every product does. -/

namespace Bookkeeping

/-- The units of `y` for one unit of `x` without a currency in between: the latest price, or, where
    there is none, the inverse of the latest opposite one, rounded to nearest. -/
inductive Leg (quotes : List Quote) (date : Option Date) (x y : String) : Decimal → Prop where
  | quoted {q : Quote} (h : IsLatest quotes x y date q) : Leg quotes date x y q.price
  | inverse {q : Quote} {r : Decimal} (hnone : ∀ q ∈ quotes, ¬ q.Tells x y date)
      (h : IsLatest quotes y x date q) (hr : q.price.inverse? = some r)
      (hvalue : ∃ s, Decimal.NearestAt s (1 / q.price.toRat) r) : Leg quotes date x y r

/-- Whether quotes tell a leg: some quote is in `y`, or else the latest opposite price is not
    zero. -/
def Resolvable (quotes : List Quote) (date : Option Date) (x y : String) : Prop :=
  (∃ q ∈ quotes, q.Tells x y date) ∨ ∃ q, IsLatest quotes y x date q ∧ q.price.toRat ≠ 0

/-- Whether rates between different currencies are what quotes tell, directly or through one
    currency in between, and are missing only where they tell nothing. -/
structure Resolves (quotes : List Quote) (rates : RateLookup) : Prop where
  /-- There is a leg exactly where the quotes tell one. -/
  leg_iff : ∀ date x y, (∃ r, Leg quotes date x y r) ↔ Resolvable quotes date x y
  /-- Where there is a leg, it is the rate. -/
  of_leg : ∀ date base quote r, base ≠ quote → Leg quotes date base quote r →
    rates base quote date = some r
  /-- Any other rate is the rounded product of two legs. -/
  chained : ∀ date base quote r, base ≠ quote → ¬ Resolvable quotes date base quote →
    rates base quote date = some r →
    ∃ via a b, via ≠ base ∧ via ≠ quote ∧ Leg quotes date base via a ∧ Leg quotes date via quote b ∧
      a.mul b = some r ∧ ∃ s, Decimal.NearestAt s (a.toRat * b.toRat) r
  /-- A rate is missing exactly where there is no leg and every product of two is out of range. -/
  none_iff : ∀ date base quote, base ≠ quote →
    (rates base quote date = none ↔
      ¬ Resolvable quotes date base quote ∧
        ∀ via a b, via ≠ base → via ≠ quote → Leg quotes date base via a →
          Leg quotes date via quote b →
          (Decimal.magnitudeBound : ℚ) ≤ |a.toRat * b.toRat| + 1 / 2)

section

variable {quotes : List Quote} {date : Option Date} {x y : String}

theorem exists_leg_iff : (∃ r, Leg quotes date x y r) ↔ Resolvable quotes date x y := by
  constructor
  · rintro ⟨_, h | ⟨-, h, hr, -⟩⟩
    · exact .inl ⟨_, h.mem, h.tells⟩
    · exact .inr ⟨_, h, Decimal.toRat_ne_zero_of_inverse? hr⟩
  · intro h
    by_cases htold : ∃ q ∈ quotes, q.Tells x y date
    · obtain ⟨q, hq⟩ := RateTable.exists_isLatest htold
      exact ⟨_, .quoted hq⟩
    · obtain ⟨q, hq, hprice⟩ := h.resolve_left htold
      obtain ⟨r, hr, hvalue⟩ := Decimal.inverse?_nearestAt hprice
      exact ⟨r, .inverse (fun q hmem htells => htold ⟨q, hmem, htells⟩) hq hr hvalue⟩

end

namespace RateTable

variable {quotes : List Quote} {table : RateTable} {date : Option Date} {base quote : String}

/-! ## Legs -/

/-- What a table finds without a currency in between is the leg. -/
theorem leg?_eq_some_iff (h : GainsAll quotes .empty table) {r : Decimal} :
    table.leg? base quote date = some r ↔ Leg quotes date base quote r := by
  unfold leg?
  cases hdirect : table.direct? base quote date with
  | some price =>
      dsimp only
      rw [← hdirect]
      constructor
      · intro hr
        obtain ⟨q, hq, rfl⟩ := (direct?_eq_some_iff h).1 hr
        exact .quoted hq
      · rintro (hq | ⟨hnone, -, -, -⟩)
        · exact (direct?_eq_some_iff h).2 ⟨_, hq, rfl⟩
        · obtain ⟨q, hq, -⟩ := (direct?_eq_some_iff h).1 hdirect
          exact absurd hq.tells (hnone q hq.mem)
  | none =>
      dsimp only
      rw [Option.bind_eq_some_iff]
      constructor
      · rintro ⟨p, hp, hr⟩
        obtain ⟨q, hq, rfl⟩ := (direct?_eq_some_iff h).1 hp
        obtain ⟨c, hc, hvalue⟩ :=
          Decimal.inverse?_nearestAt (Decimal.toRat_ne_zero_of_inverse? hr)
        rw [hr, Option.some.injEq] at hc
        subst hc
        exact .inverse ((direct?_eq_none_iff h).1 hdirect) hq hr hvalue
      · rintro (hq | ⟨-, hq, hr, -⟩)
        · rw [(direct?_eq_some_iff h).2 ⟨_, hq, rfl⟩] at hdirect
          cases hdirect
        · exact ⟨_, (direct?_eq_some_iff h).2 ⟨_, hq, rfl⟩, hr⟩

/-! ## Currencies in between -/

theorem exists_history_of_mem {e : RateEntry} (he : e ∈ table.entriesOf base) :
    ∃ h ∈ table.histories.items, h.base = base ∧ e ∈ h.entries := by
  unfold entriesOf at he
  cases hfind : table.histories.find? base with
  | none =>
      rw [hfind] at he
      cases he
  | some h =>
      rw [hfind] at he
      obtain ⟨hmem, hbase⟩ := table.histories.find?_eq_some_iff.1 hfind
      exact ⟨h, hmem, hbase, he⟩

theorem entryOf_mem_entriesOf (h : GainsAll quotes .empty table) {q : Quote} (hmem : q ∈ quotes) :
    entryOf q ∈ table.entriesOf q.base := by
  rw [h.entriesOf]
  exact mem_entriesFor.2 ⟨q, hmem, rfl, rfl⟩

/-- A currency that is quoted against the base in either direction is a neighbour of it. -/
theorem mem_neighbours (h : GainsAll quotes .empty table) {via : String} {q : Quote}
    (hmem : q ∈ quotes) (htells : q.Tells base via date ∨ q.Tells via base date) :
    via ∈ table.neighbours base date := by
  have hentry := entryOf_mem_entriesOf h hmem
  unfold neighbours
  rcases htells with htells | htells
  · obtain ⟨rfl, htest⟩ := tells_iff.1 htells
    obtain ⟨hcurrency, hdate⟩ := Bool.and_eq_true_iff.1 htest
    exact List.mem_append_left _ (List.mem_map.2
      ⟨entryOf q, List.mem_filter.2 ⟨hentry, hdate⟩, of_decide_eq_true hcurrency⟩)
  · obtain ⟨rfl, htest⟩ := tells_iff.1 htells
    obtain ⟨h, hhistory, hbase, hin⟩ := exists_history_of_mem hentry
    refine List.mem_append_right _ (List.mem_map.2 ⟨h, List.mem_filter.2 ⟨hhistory, ?_⟩, hbase⟩)
    exact List.any_eq_true.2 ⟨entryOf q, hin, htest⟩

/-- No currency with a first leg is overlooked. -/
theorem mem_neighbours_of_leg (h : GainsAll quotes .empty table) {via : String} {a : Decimal}
    (hleg : Leg quotes date base via a) : via ∈ table.neighbours base date := by
  cases hleg with
  | quoted hq => exact mem_neighbours h hq.mem (.inl hq.tells)
  | inverse hnone hq hr hvalue => exact mem_neighbours h hq.mem (.inr hq.tells)

/-- A rate through a currency in between is the product of its legs. -/
theorem legs_of_chained?_eq_some (h : GainsAll quotes .empty table) {r : Decimal}
    (hr : table.chained? base quote date = some r) :
    ∃ via a b, via ≠ base ∧ via ≠ quote ∧ Leg quotes date base via a ∧ Leg quotes date via quote b ∧
      a.mul b = some r := by
  obtain ⟨via, -, hvia⟩ := List.exists_of_findSome?_eq_some hr
  split at hvia
  · cases hvia
  · next hne =>
      obtain ⟨a, ha, hb⟩ := Option.bind_eq_some_iff.1 hvia
      obtain ⟨b, hb, hmul⟩ := Option.bind_eq_some_iff.1 hb
      rw [not_or] at hne
      exact ⟨via, a, b, hne.2, hne.1, (leg?_eq_some_iff h).1 ha, (leg?_eq_some_iff h).1 hb, hmul⟩

/-- There is no rate through another currency only if no two legs have a product. -/
theorem chained?_eq_none_iff (h : GainsAll quotes .empty table) :
    table.chained? base quote date = none ↔
      ∀ via a b, via ≠ base → via ≠ quote → Leg quotes date base via a →
        Leg quotes date via quote b → a.mul b = none := by
  constructor
  · intro hnone via a b hbase hquote ha hb
    have hvia := List.findSome?_eq_none_iff.1 hnone via (mem_neighbours_of_leg h ha)
    rwa [if_neg (not_or.2 ⟨hquote, hbase⟩), (leg?_eq_some_iff h).2 ha,
      (leg?_eq_some_iff h).2 hb] at hvia
  · intro hnone
    cases hr : table.chained? base quote date with
    | none => rfl
    | some r =>
        obtain ⟨via, a, b, hbase, hquote, ha, hb, hmul⟩ := legs_of_chained?_eq_some h hr
        rw [hnone via a b hbase hquote ha hb] at hmul
        cases hmul

/-! ## Rates -/

theorem rate?_of_leg (h : GainsAll quotes .empty table) (hne : base ≠ quote) {r : Decimal}
    (hleg : Leg quotes date base quote r) : table.rate? base quote date = some r := by
  rw [rate?, if_neg hne, (leg?_eq_some_iff h).2 hleg]

theorem rate?_of_not_resolvable (h : GainsAll quotes .empty table) (hne : base ≠ quote)
    (hnot : ¬ Resolvable quotes date base quote) :
    table.rate? base quote date = table.chained? base quote date := by
  rw [rate?, if_neg hne]
  cases hleg : table.leg? base quote date with
  | none => rfl
  | some r => exact absurd (exists_leg_iff.1 ⟨r, (leg?_eq_some_iff h).1 hleg⟩) hnot

/-- Whatever the order in which currencies are walked, the rates of a table are those that its
    quotes tell. They are the latest ones; where neither a price nor an inverse is told they are
    products through one currency, and none is missing while some product is in range. -/
theorem rate?_resolves (h : GainsAll quotes .empty table) : Resolves quotes table.rate? where
  leg_iff _ _ _ := exists_leg_iff
  of_leg _ _ _ _ hne hleg := rate?_of_leg h hne hleg
  chained date base quote r hne hnot hr := by
    rw [rate?_of_not_resolvable h hne hnot] at hr
    obtain ⟨via, a, b, hbase, hquote, ha, hb, hmul⟩ := legs_of_chained?_eq_some h hr
    exact ⟨via, a, b, hbase, hquote, ha, hb, hmul, Decimal.mul_nearestAt hmul⟩
  none_iff date base quote hne := by
    by_cases hresolvable : Resolvable quotes date base quote
    · obtain ⟨r, hleg⟩ := exists_leg_iff.2 hresolvable
      simp [rate?_of_leg h hne hleg, hresolvable]
    · rw [rate?_of_not_resolvable h hne hresolvable, chained?_eq_none_iff h]
      simp only [hresolvable, not_false_eq_true, true_and, Decimal.mul_eq_none_iff]

/-- Quotes among which three currencies come before the dollar: the yen has no price in yuan, the
    product through the won is too large, and the price of the pound is zero. The euro itself is
    priced in yuan only in February. -/
def crowdedQuotes : List Quote :=
  [quoteOn 1 1 "EUR" "JPY" 160 0, quoteOn 1 1 "EUR" "KRW" (10 ^ 28) 0,
    quoteOn 1 1 "KRW" "CNY" 10 0, quoteOn 1 2 "GBP" "EUR" 0 0, quoteOn 1 3 "USD" "EUR" 9 1,
    quoteOn 1 4 "USD" "EUR" 8 1, quoteOn 1 5 "USD" "CNY" 7 0, quoteOn 2 1 "EUR" "CNY" 8 0]

theorem rate?_resolves_crowded :
    GainsAll crowdedQuotes .empty (.ofList crowdedQuotes) ∧
      Resolves crowdedQuotes (ofList crowdedQuotes).rate? ∧
      (ofList crowdedQuotes).rate? "EUR" "CNY" (some ⟨2024, 1, 20, by decide⟩) =
        some ⟨false, 875, 2, by decide, by decide⟩ ∧
      (ofList crowdedQuotes).rate? "EUR" "CNY" (some ⟨2024, 1, 2, by decide⟩) = none := by
  have hgain : GainsAll crowdedQuotes .empty (.ofList crowdedQuotes) := gainsAll_foldl_add _ _
  exact ⟨hgain, rate?_resolves hgain, by decide +kernel, by decide +kernel⟩

end RateTable

end Bookkeeping
