import Bookkeeping.Proofs.Subtotal.Failures
import Bookkeeping.Proofs.Subtotal.Finishing

set_option autoImplicit false

/-! # Amounts are converted before they are grouped

Every posting is converted and entered before the next one is looked at, and its groups are named by
the posting, never by the converted amount. So where all amounts convert, the subtotal is that of
the converted amounts without any conversion, on the levels that are in effect with it,
`Spec.afterConversion`.

Of all that can fail, what comes first in the list of postings wins: an amount that does not convert
ends the subtotal with its own failure, unless a sum of amounts before it is out of range. An amount
in the currency itself is not looked up, so it needs no rate. -/

namespace Bookkeeping

namespace RateLookup

variable (rates : RateLookup)

theorem convert_self (amount : Decimal) (currency : String) (date : Option Date) :
    rates.convert amount currency currency date = .ok amount :=
  if_pos rfl

/-- A conversion fails where the rate is missing, and where the product is out of range. -/
theorem convert_eq_error {amount : Decimal} {currency target : String} {date : Option Date}
    {e : Failure} (h : rates.convert amount currency target date = .error e) :
    e = .missingRate currency target date ∧ rates currency target date = none ∨
      e = .overflow ∧ ∃ rate, rates currency target date = some rate ∧ amount.mul rate = none := by
  unfold convert at h
  split at h
  · cases h
  · cases hrate : rates currency target date with
    | none =>
        rw [hrate] at h
        exact .inl ⟨(Except.error.inj h).symm, rfl⟩
    | some rate =>
        rw [hrate] at h
        have hproduct : amount.checkedMul rate = .error e := h
        unfold Decimal.checkedMul at hproduct
        cases hmul : amount.mul rate with
        | none =>
            rw [hmul] at hproduct
            exact .inr ⟨(Except.error.inj hproduct).symm, rate, rfl, hmul⟩
        | some product =>
            rw [hmul] at hproduct
            cases hproduct

end RateLookup

namespace Subtotal

/-- The request that is left once amounts are converted: the same levels, and no conversion. -/
def Spec.afterConversion (spec : Spec) : Spec :=
  { spec with levels := some spec.effectiveLevels, conversion := none }

/-- The amount of a posting in the currency of a conversion, at the rate of the date of the
    conversion or else of the date of the posting. -/
def Conversion.convert (c : Conversion) (rates : RateLookup) (p : Posting) (amount : Decimal) :
    Except Failure Decimal :=
  rates.convert amount p.detail.currency c.currency (c.date.or p.date)

/-- The failure of an amount that does not convert: its rate is missing, for the currencies and the
    date asked for, or it is out of range in the other currency. -/
def Conversion.FailsWith (c : Conversion) (rates : RateLookup) (p : Posting) (amount : Decimal)
    (e : Failure) : Prop :=
  let asked := c.date.or p.date
  e = .missingRate p.detail.currency c.currency asked ∧
      rates p.detail.currency c.currency asked = none ∨
    e = .overflow ∧ ∃ rate, rates p.detail.currency c.currency asked = some rate ∧
      amount.mul rate = none

/-- The same postings, each with its amount converted. -/
def Converts (c : Conversion) (rates : RateLookup) (entries records : List (Posting × Decimal)) :
    Prop :=
  List.Forall₂ (fun entry record =>
    record.1 = entry.1 ∧ c.convert rates entry.1 entry.2 = .ok record.2) entries records

/-- Enters postings one after another, as long as none fails. -/
abbrev enterAll (spec : Spec) (rates : RateLookup) (entries : List (Posting × Decimal)) :
    Except Failure Grouping :=
  entries.foldlM (enterPosting spec rates) .empty

section

variable {spec : Spec} {c : Conversion} {rates : RateLookup}

/-- A conversion of postings that are in its currency leaves them as they are. -/
theorem converts_self {entries : List (Posting × Decimal)}
    (h : ∀ entry ∈ entries, entry.1.detail.currency = c.currency) :
    Converts c rates entries entries := by
  refine List.forall₂_same.2 fun entry hmem => ⟨rfl, ?_⟩
  rw [Conversion.convert, h entry hmem]
  exact rates.convert_self _ _ _

/-- No posting is entered behind one that cannot be entered. -/
theorem foldlM_enterPosting_failing {p : Posting} {amount : Decimal} {e : Failure}
    (hamount : spec.amountOf rates p amount = .error e) (before after : List (Posting × Decimal))
    (all : Grouping) :
    (before ++ (p, amount) :: after).foldlM (enterPosting spec rates) all =
      before.foldlM (enterPosting spec rates) all >>= fun _ => .error e := by
  rw [List.foldlM_append]
  refine bind_congr fun reached => ?_
  rw [List.foldlM_cons, enterPosting, hamount]
  rfl

section

variable (hgather : spec.gather = .all ∨ spec.gather = .nonZero)

include hgather

theorem isCount_eq_false : spec.gather.isCount = false := by
  rcases hgather with h | h <;> rw [h] <;> rfl

theorem amountOf_eq_convert (hconversion : spec.conversion = some c) (p : Posting)
    (amount : Decimal) : spec.amountOf rates p amount = c.convert rates p amount := by
  rw [Spec.amountOf, isCount_eq_false hgather, hconversion]
  rfl

theorem amountOf_afterConversion (p : Posting) (amount : Decimal) :
    spec.afterConversion.amountOf rates p amount = .ok amount := by
  have hsame : spec.afterConversion.gather = spec.gather := rfl
  rw [Spec.amountOf, hsame, isCount_eq_false hgather]
  rfl

end

variable (hconversion : spec.conversion = some c)
  (hgather : spec.gather = .all ∨ spec.gather = .nonZero) (others : RateLookup)

include hconversion hgather

/-- A posting is entered with its converted amount, under keys that do not depend on it. -/
theorem enterPosting_converted {p : Posting} {amount converted : Decimal}
    (hconvert : c.convert rates p amount = .ok converted) (all : Grouping) :
    enterPosting spec rates all (p, amount) =
      enterPosting spec.afterConversion others all (p, converted) := by
  rw [enterPosting, enterPosting, amountOf_eq_convert hgather hconversion, hconvert,
    amountOf_afterConversion hgather]
  rfl

theorem foldlM_enterPosting_converted {entries records : List (Posting × Decimal)}
    (h : Converts c rates entries records) (all : Grouping) :
    entries.foldlM (enterPosting spec rates) all =
      records.foldlM (enterPosting spec.afterConversion others) all := by
  induction h generalizing all with
  | nil => rfl
  | @cons entry record rest more hhead _ ih =>
      obtain ⟨p, amount⟩ := entry
      obtain ⟨_, converted⟩ := record
      obtain ⟨rfl, hconvert⟩ := hhead
      rw [List.foldlM_cons, List.foldlM_cons,
        enterPosting_converted hconversion hgather others hconvert]
      exact bind_congr ih

theorem ofPostings_converted {entries records : List (Posting × Decimal)}
    (h : Converts c rates entries records) :
    ofPostings spec rates entries = ofPostings spec.afterConversion others records := by
  unfold ofPostings
  rw [foldlM_enterPosting_converted hconversion hgather others h]
  refine bind_congr fun all => ?_
  have hprunes : spec.prunes = spec.afterConversion.prunes := rfl
  have hseries : spec.series = spec.afterConversion.series := rfl
  rw [Group.finish_congr hprunes hseries]
  rfl

end

/-- Amounts are converted one by one before they are grouped. Where all of them convert, the
    subtotal is that of the converted amounts under the keys of their postings. The first one that
    does not convert ends the subtotal with its own failure, where the sums before it exist.
    Amounts in the currency itself are kept, and need no rate. -/
theorem ofPostings_converts_first (spec : Spec) (c : Conversion) (rates others : RateLookup)
    (hconversion : spec.conversion = some c)
    (hgather : spec.gather = .all ∨ spec.gather = .nonZero) :
    (∀ entries records, Converts c rates entries records →
      ofPostings spec rates entries = ofPostings spec.afterConversion others records) ∧
    (∀ before converted p amount after e, Converts c rates before converted →
      c.convert rates p amount = .error e →
        c.FailsWith rates p amount e ∧
        (enterAll spec.afterConversion others converted ≠ .error .overflow →
          ofPostings spec rates (before ++ (p, amount) :: after) = .error e) ∧
        (enterAll spec.afterConversion others converted = .error .overflow →
          ofPostings spec rates (before ++ (p, amount) :: after) = .error .overflow)) ∧
    ∀ entries, (∀ entry ∈ entries, entry.1.detail.currency = c.currency) →
      Converts c rates entries entries ∧
        ∀ currency target date,
          ofPostings spec rates entries ≠ .error (.missingRate currency target date) := by
  have hkept : ∀ p amount, OnlyFails (· = .overflow)
      (spec.afterConversion.amountOf others p amount) := by
    intro p amount
    rw [amountOf_afterConversion hgather]
    exact .ok amount
  refine ⟨fun entries records h => ofPostings_converted hconversion hgather others h, ?_, ?_⟩
  · intro before converted p amount after e h hconvert
    have hamount : spec.amountOf rates p amount = .error e := by
      rw [amountOf_eq_convert hgather hconversion, hconvert]
    have hresult : ofPostings spec rates (before ++ (p, amount) :: after) =
        enterAll spec.afterConversion others converted >>= fun _ => .error e := by
      rw [ofPostings, foldlM_enterPosting_failing hamount,
        foldlM_enterPosting_converted hconversion hgather others h, bind_assoc]
      rfl
    refine ⟨rates.convert_eq_error hconvert, fun hsums => ?_, fun hsums => ?_⟩
    · cases hbefore : enterAll spec.afterConversion others converted with
      | ok all =>
          rw [hresult, hbefore]
          rfl
      | error failure =>
          have hoverflow : failure = .overflow :=
            onlyFails_enterAll (P := (· = .overflow)) rfl hkept converted _ failure hbefore
          exact absurd (hoverflow ▸ hbefore) hsums
    · rw [hresult, hsums]
      rfl
  · intro entries hcurrency
    have hself : Converts c rates entries entries := converts_self hcurrency
    refine ⟨hself, fun currency target date hmissing => ?_⟩
    rw [ofPostings_converted hconversion hgather others hself] at hmissing
    cases onlyFails_ofPostings_of (P := (· = .overflow)) rfl hkept entries _ hmissing

/-- Sums in yuan, by currency. -/
def yuanByCurrency : Spec := ⟨some [.currency], .nonZero, .none, some ⟨"CNY", none⟩⟩

/-- A number of units. -/
def units (n : Nat) : Decimal := (Decimal.ofParts? n 0).getD .zero

/-- Since the new year a dollar is seven yuan. -/
def dollarRate : RateTable := .ofList [⟨⟨2024, 1, 1, by decide⟩, "USD", "CNY", units 7⟩]

/-- An amount of a currency that is spent on a day. -/
def spent (currency : String) (day : Date) (n : Nat) : Posting × Decimal :=
  (⟨.dated day, 0, { Detail.ofTitle 6602 (units n) with currency := currency }, 0⟩, units n)

def dollars : Posting × Decimal := spent "USD" ⟨2024, 5, 13, by decide⟩ 2

def yen : Posting × Decimal := spent "JPY" ⟨2024, 5, 14, by decide⟩ 5

def yuan : Posting × Decimal := spent "CNY" ⟨2024, 5, 15, by decide⟩ 3

/-- Dollars stay in a group of their own, yen have no rate, and yuan need none. -/
theorem ofPostings_converts_first_dollars :
    ofPostings yuanByCurrency dollarRate.rate? [dollars, yuan] =
        ofPostings yuanByCurrency.afterConversion RateTable.empty.rate?
          [(dollars.1, units 14), yuan] ∧
      ofPostings yuanByCurrency dollarRate.rate? [dollars, yen, yuan] =
        .error (.missingRate "JPY" "CNY" (some ⟨2024, 5, 14, by decide⟩)) ∧
      ∀ currency target date, ofPostings yuanByCurrency RateTable.empty.rate? [yuan] ≠
        .error (.missingRate currency target date) := by
  have hsums : enterAll yuanByCurrency.afterConversion RateTable.empty.rate?
      [(dollars.1, units 14)] ≠ .error .overflow := by
    intro h
    cases h
  have hgather : yuanByCurrency.gather = .all ∨ yuanByCurrency.gather = .nonZero := .inr rfl
  obtain ⟨hconverted, hfirst, _⟩ := ofPostings_converts_first yuanByCurrency ⟨"CNY", none⟩
    dollarRate.rate? RateTable.empty.rate? rfl hgather
  obtain ⟨_, _, hneeds⟩ := ofPostings_converts_first yuanByCurrency ⟨"CNY", none⟩
    RateTable.empty.rate? RateTable.empty.rate? rfl hgather
  refine ⟨hconverted _ _ ?_, (hfirst [dollars] _ yen.1 yen.2 [yuan] _ ?_ ?_).2.1 hsums,
    (hneeds _ ?_).2⟩
  · exact .cons ⟨rfl, by decide +kernel⟩ (.cons ⟨rfl, by decide +kernel⟩ .nil)
  · exact .cons ⟨rfl, by decide +kernel⟩ .nil
  · decide +kernel
  · intro entry hmem
    rw [List.mem_singleton.1 hmem]
    rfl

end Subtotal

end Bookkeeping
