import Bookkeeping.Failure
import Bookkeeping.Keyed

set_option autoImplicit false

/-! # Exchange rates

A quote says what one unit of a base currency costs in another on a day. A `RateTable` keeps the
quotes of each base currency by date, those of one day in the order they were added, and answers
with the last one on or before a date: quoted directly, or the inverse of the opposite quote, or
through one currency in between.

Amounts are converted by any `RateLookup`, of which a table is one. -/

namespace Bookkeeping

/-- One unit of `base` costs `price` units of `quote` on a day. -/
structure Quote where
  date : Date
  base : String
  quote : String
  price : Decimal
deriving DecidableEq

/-- The units of a second currency for one unit of a first one, on or before a date if one is
    given. -/
abbrev RateLookup : Type := String → String → Option Date → Option Decimal

/-- An amount of one currency converted into another. -/
def RateLookup.convert (rates : RateLookup) (amount : Decimal) (currency target : String)
    (date : Option Date) : Except Failure Decimal :=
  if currency = target then .ok amount
  else
    match rates currency target date with
    | some rate => amount.checkedMul rate
    | none => .error (.missingRate currency target date)

/-- A price in a currency from a day on. -/
structure RateEntry where
  date : Date
  price : Decimal
  currency : String
deriving DecidableEq

/-- The prices of one currency in others, in the order of their dates. -/
structure PriceHistory where
  base : String
  entries : List RateEntry
  sorted : entries.Pairwise fun a b => a.date ≤ b.date

namespace PriceHistory

/-- Puts an entry behind all those that are not dated later. -/
def insertEntry (e : RateEntry) : List RateEntry → List RateEntry
  | [] => [e]
  | x :: rest => if x.date ≤ e.date then x :: insertEntry e rest else e :: x :: rest

/-- An entry is put between those that are not dated later and those that are. -/
theorem insertEntry_split {entries : List RateEntry}
    (hsorted : entries.Pairwise fun a b => a.date ≤ b.date) (e : RateEntry) :
    ∃ front back, entries = front ++ back ∧ insertEntry e entries = front ++ e :: back ∧
      (∀ a ∈ front, a.date ≤ e.date) ∧ ∀ b ∈ back, e.date < b.date := by
  induction entries with
  | nil => exact ⟨[], [], rfl, rfl, by simp, by simp⟩
  | cons x rest ih =>
      obtain ⟨hfirst, hrest⟩ := List.pairwise_cons.1 hsorted
      rw [insertEntry]
      by_cases hle : x.date ≤ e.date
      · obtain ⟨front, back, rfl, hinsert, hfront, hback⟩ := ih hrest
        refine ⟨x :: front, back, rfl, by rw [if_pos hle, hinsert]; rfl, ?_, hback⟩
        intro a ha
        rcases List.mem_cons.1 ha with rfl | ha
        · exact hle
        · exact hfront a ha
      · have hlt : e.date < x.date := Int.not_le.1 hle
        refine ⟨[], x :: rest, rfl, by rw [if_neg hle]; rfl, by simp, ?_⟩
        intro b hb
        rcases List.mem_cons.1 hb with rfl | hb
        · exact hlt
        · exact Int.lt_of_lt_of_le hlt (hfirst b hb)

theorem sorted_insertEntry {entries : List RateEntry}
    (hsorted : entries.Pairwise fun a b => a.date ≤ b.date) (e : RateEntry) :
    (insertEntry e entries).Pairwise fun a b => a.date ≤ b.date := by
  obtain ⟨front, back, rfl, hinsert, hfront, hback⟩ := insertEntry_split hsorted e
  obtain ⟨hfrontSorted, hbackSorted, hacross⟩ := List.pairwise_append.1 hsorted
  rw [hinsert, List.pairwise_append]
  refine ⟨hfrontSorted, ?_, ?_⟩
  · exact List.pairwise_cons.2 ⟨fun b hb => Int.le_of_lt (hback b hb), hbackSorted⟩
  · intro a ha b hb
    rcases List.mem_cons.1 hb with rfl | hb
    · exact hfront a ha
    · exact hacross a ha b hb

/-- The history of one entry. -/
def single (base : String) (e : RateEntry) : PriceHistory := ⟨base, [e], .cons (by simp) .nil⟩

/-- The history with one more entry. -/
def insert (h : PriceHistory) (e : RateEntry) : PriceHistory :=
  ⟨h.base, insertEntry e h.entries, sorted_insertEntry h.sorted e⟩

end PriceHistory

/-- The price histories of base currencies, one for each. -/
structure RateTable where
  histories : Keyed PriceHistory.base

namespace RateTable

/-! ## Entering quotes -/

/-- The table without quotes. -/
def empty : RateTable := ⟨.empty⟩

/-- The entry that a quote makes under its base currency. -/
def entryOf (q : Quote) : RateEntry := ⟨q.date, q.price, q.quote⟩

/-- The table with one more quote; a new base currency comes last. -/
def add (table : RateTable) (q : Quote) : RateTable :=
  ⟨table.histories.upsert (.single q.base (entryOf q)) (·.insert (entryOf q)) fun _ h => h⟩

/-- The table of quotes added one after another. -/
def ofList (quotes : List Quote) : RateTable :=
  quotes.foldl add empty

/-- Whether the table has no quotes. -/
def isEmpty (table : RateTable) : Bool := table.histories.items.isEmpty

/-! ## Looking rates up -/

/-- The entries under a base currency. -/
def entriesOf (table : RateTable) (base : String) : List RateEntry :=
  ((table.histories.find? base).map (·.entries)).getD []

theorem sorted_entriesOf (table : RateTable) (base : String) :
    (table.entriesOf base).Pairwise fun a b => a.date ≤ b.date := by
  unfold entriesOf
  cases table.histories.find? base with
  | none => exact .nil
  | some h => exact h.sorted

/-- Whether an entry is dated on or before a date. -/
def isUpTo (date : Option Date) (e : RateEntry) : Bool :=
  date.all (e.date ≤ ·)

/-- The last price of `base` in `quote`. -/
def direct? (table : RateTable) (base quote : String) (date : Option Date) : Option Decimal :=
  ((table.entriesOf base).reverse.find? fun e =>
    e.currency = quote && isUpTo date e).map (·.price)

/-- The last price of `base` in `quote`, or else the inverse of that of `quote` in `base`. -/
def leg? (table : RateTable) (base quote : String) (date : Option Date) : Option Decimal :=
  match table.direct? base quote date with
  | some price => some price
  | none => (table.direct? quote base date).bind Decimal.inverse?

/-- The currencies that are quoted against `base` in either direction. -/
def neighbours (table : RateTable) (base : String) (date : Option Date) : List String :=
  ((table.entriesOf base).filter (isUpTo date)).map (·.currency) ++
    (table.histories.items.filter fun h =>
      h.entries.any fun e => e.currency = base && isUpTo date e).map (·.base)

/-- The rate through a currency in between, the first one that has both legs. -/
def chained? (table : RateTable) (base quote : String) (date : Option Date) : Option Decimal :=
  (table.neighbours base date).findSome? fun via =>
    if via = quote ∨ via = base then none
    else do (← table.leg? base via date).mul (← table.leg? via quote date)

/-- The units of `quote` for one unit of `base`. -/
def rate? (table : RateTable) : RateLookup := fun base quote date =>
  if base = quote then some .one
  else
    match table.leg? base quote date with
    | some rate => some rate
    | none => table.chained? base quote date

end RateTable

end Bookkeeping
