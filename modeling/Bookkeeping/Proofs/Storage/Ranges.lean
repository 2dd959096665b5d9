import Bookkeeping.Proofs.Query.Agreement
import Bookkeeping.Proofs.Storage.Basic
import Bookkeeping.Storage.Query

set_option autoImplicit false

/-! # Ranges that are stored by their bounds

A range that is made from bounds takes undated records when it has no first day. One that is read
from its bounds alone never takes them, because a range without word on undated records does not
include them. Dated records are the same for both, so the two agree exactly where there is a first
day, and a query that is read with such a range finds the vouchers of the other one that have a
date. -/

namespace Bookkeeping

open Json (Members)

namespace DateRange

/-- Whether the members of a range are its bounds, with no word on undated records. -/
structure GivesBounds (members : Members) (first last : Option Date) : Prop where
  first : members.field? "start" = some first
  last : members.field? "end" = some last
  nullable : members.get? "nullable" = none
  nullOnly : members.get? "null_only" = none

/-- The dated records between two optional days. -/
def datedWithin (first last : Option Date) : DateRange := ⟨first, last, false, false⟩

variable {members : Members} {first last : Option Date}

theorem ofJson?_of_givesBounds (h : GivesBounds members first last) :
    ofJson? (.object members) = some (datedWithin first last) := by
  have hnullable : members.fieldD "nullable" false = some false := by
    rw [Members.fieldD, h.nullable]
  have hnullOnly : members.fieldD "null_only" false = some false := by
    rw [Members.fieldD, h.nullOnly]
  unfold instStoredDateRange
  dsimp only
  rw [Json.record?_object, Option.bind_eq_bind, Option.bind_some, h.first, h.last, hnullable,
    hnullOnly]
  rfl

theorem contains_datedWithin (first last date : Option Date) :
    (datedWithin first last).contains date =
      ((ofBounds first last).contains date && date.isSome) := by
  cases date <;> simp [datedWithin, ofBounds, contains]

/-- The undated records make the difference, and a first day excludes them. -/
theorem contains_datedWithin_eq_iff (first last : Option Date) :
    (∀ date, (datedWithin first last).contains date = (ofBounds first last).contains date) ↔
      first ≠ none := by
  constructor
  · rintro h rfl
    cases h none
  · intro h date
    rw [contains_datedWithin]
    cases date with
    | none => simpa [ofBounds, contains, Option.isSome_iff_ne_none] using h
    | some d => simp

end DateRange

namespace VoucherFilter

open DateRange (datedWithin ofBounds)

theorem accepts_datedWithin (f : VoucherFilter) (first last : Option Date) (v : Voucher) :
    ({ f with range := datedWithin first last } : VoucherFilter).accepts v =
      (({ f with range := ofBounds first last } : VoucherFilter).accepts v && v.date.isSome) := by
  unfold accepts acceptsGiven
  dsimp only
  rw [DateRange.contains_datedWithin]
  cases v.date.isSome <;> simp

end VoucherFilter

/-- The vouchers found by a range without undated records are the dated ones among those that the
    range made from the same bounds finds, whatever else is asked for. -/
theorem Ledger.filterVouchers_datedWithin (ledger : Ledger) (f : VoucherFilter)
    (first last : Option Date) :
    ledger.filterVouchers (.leaf { f with range := .datedWithin first last }) =
      (ledger.filterVouchers (.leaf { f with range := .ofBounds first last })).filter
        (·.1.date.isSome) := by
  rw [filterVouchers_eq, filterVouchers_eq, List.filter_filter]
  refine List.filter_congr fun s _ => ?_
  rw [Bool.and_comm]
  exact f.accepts_datedWithin first last s.1

/-- Another range in a stored filter is another range in the filter. -/
theorem VoucherFilter.ofJson?_range {j : Json} {r : DateRange} (hr : ofJson? j = some r)
    (s : DateRange) (others : Members) :
    (ofJson? (.object (("range", j) :: others)) : Option VoucherFilter) =
      (ofJson? (.object (("range", toJson s) :: others)) : Option VoucherFilter).map
        ({ · with range := r }) := by
  have hread (missing : Option DateRange) : Members.read? missing (some j) = some r := hr
  unfold instStoredVoucherFilter
  simp only [Json.record?_object, Members.fieldD_eq, Members.field?_eq, Members.get?_cons,
    String.reduceEq, ↓reduceIte, Option.pure_def, Option.bind_eq_bind, Option.bind_some, hread,
    Members.read?_toJson, id_eq, Option.map_bind, Option.map_some, Function.comp_def]

theorem VoucherFilter.ofJson?_within (s : DateRange) :
    ofJson? (.object [("range", toJson s)]) = some (within s) := by
  unfold instStoredVoucherFilter
  simp [Members.read?, within, wildcard, Json.Members.get?_nil]

theorem ofJson?_atom {α : Type} [Stored α] (j : Json) :
    (ofJson? (.object [("atom", j)]) : Option (Query α)) = (ofJson? j).map .leaf := by
  show Query.ofJson? _ = _
  rw [Query.ofJson?]

namespace DateRange

variable {members : Members} {first last : Option Date}

/-- A range that is read from its bounds alone includes what the range made from them does, but
    for undated records, so it is the same one only if there is a first day. Queries that are read
    with it miss the undated vouchers, whatever else they ask for. A query without any range takes
    everything, like the range made without bounds. -/
theorem read_bounds_exclude_undated (h : GivesBounds members first last) :
    (∃ r : DateRange, ofJson? (.object members) = some r ∧
      (∀ date, r.contains date = ((ofBounds first last).contains date && date.isSome)) ∧
      ((∀ date, r.contains date = (ofBounds first last).contains date) ↔ first ≠ none)) ∧
    (∃ q : Query VoucherFilter,
      ofJson? (.object [("atom", .object [("range", .object members)])]) = some q ∧
      ∀ ledger : Ledger, ledger.filterVouchers q =
        (ledger.filterVouchers (.leaf (.within (ofBounds first last)))).filter
          (·.1.date.isSome)) ∧
    (∀ others (f : VoucherFilter),
      ofJson? (.object (("range", toJson (ofBounds first last)) :: others)) = some f →
      ∃ g : VoucherFilter, ofJson? (.object (("range", .object members) :: others)) = some g ∧
        ∀ ledger : Ledger, ledger.filterVouchers (.leaf g) =
          (ledger.filterVouchers (.leaf f)).filter (·.1.date.isSome)) ∧
    (ofJson? (.object []) : Option VoucherFilter) = some (.within (ofBounds none none)) := by
  have hread := ofJson?_of_givesBounds h
  have hfilter (others : Members) (f : VoucherFilter)
      (hf : ofJson? (.object (("range", toJson (ofBounds first last)) :: others)) = some f) :
      ofJson? (.object (("range", .object members) :: others)) =
          some ({ f with range := datedWithin first last } : VoucherFilter) ∧
        ∀ ledger : Ledger,
          ledger.filterVouchers (.leaf { f with range := datedWithin first last }) =
            (ledger.filterVouchers (.leaf f)).filter (·.1.date.isSome) := by
    -- the filter has the range that stands in its stored form
    have hrange := VoucherFilter.ofJson?_range (Kept.ofJson?_toJson (ofBounds first last))
      (ofBounds first last) others
    rw [hf, Option.map_some, Option.some.injEq] at hrange
    refine ⟨?_, fun ledger => ?_⟩
    · rw [VoucherFilter.ofJson?_range hread (ofBounds first last), hf, Option.map_some]
    · rw [ledger.filterVouchers_datedWithin]
      exact congrArg (fun f => (ledger.filterVouchers (.leaf f)).filter (·.1.date.isSome))
        hrange.symm
  refine ⟨⟨_, hread, contains_datedWithin first last, contains_datedWithin_eq_iff first last⟩, ?_,
    fun others f hf => ⟨_, hfilter others f hf⟩, rfl⟩
  obtain ⟨hwithin, hselects⟩ := hfilter [] _ (VoucherFilter.ofJson?_within (ofBounds first last))
  exact ⟨_, by rw [ofJson?_atom, hwithin, Option.map_some], hselects⟩

/-- The last day of January as the only bound. -/
def upToJanuary : Members := [("end", .text "2024-01-31")]

theorem givesBounds_upToJanuary :
    GivesBounds upToJanuary none (some ⟨2024, 1, 31, by decide⟩) :=
  ⟨by decide +kernel, by decide +kernel, by decide +kernel, by decide +kernel⟩

/-- Of an undated voucher and one of January, only the latter is found. -/
theorem read_bounds_exclude_undated_january :
    GivesBounds upToJanuary none (some ⟨2024, 1, 31, by decide⟩) ∧
      ∃ q : Query VoucherFilter,
        ofJson? (.object [("atom", .object [("range", .object upToJanuary)])]) = some q ∧
        Ledger.filterVouchers [.undated, .dated ⟨2024, 1, 9, by decide⟩] q =
          [(.dated ⟨2024, 1, 9, by decide⟩, 1)] := by
  obtain ⟨-, ⟨q, hq, hselects⟩, -, -⟩ := read_bounds_exclude_undated givesBounds_upToJanuary
  refine ⟨givesBounds_upToJanuary, q, hq, (hselects _).trans ?_⟩
  decide +kernel

/-- The range up to a day includes undated records, and it does not when it is read. -/
theorem read_bounds_differ :
    ¬ ∀ members first last (r : DateRange), GivesBounds members first last →
      ofJson? (.object members) = some r →
        ∀ date, r.contains date = (ofBounds first last).contains date := by
  intro h
  have hread := ofJson?_of_givesBounds givesBounds_upToJanuary
  cases h upToJanuary none _ _ givesBounds_upToJanuary hread none

end DateRange

end Bookkeeping
