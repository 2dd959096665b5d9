import Bookkeeping.Proofs.Decimal.ExactProduct
import Bookkeeping.Proofs.Storage.Basic
import Bookkeeping.Storage.Report

set_option autoImplicit false

/-! # Stored requests are read back

Vouchers, queries, subtotal requests, named queries and quotes are read back from their stored
forms, however deep they are nested. `dropZeroSigns` is what they are read back as: the value
itself with no sign on any zero. Values without amounts are read back as they are. -/

namespace Bookkeeping

open Decimal (dropZeroSign)

/-! ## Ledgers -/

/-- The detail without the sign of a zero. -/
def Detail.dropZeroSigns (d : Detail) : Detail :=
  { d with fund := d.fund.dropZeroSign }

/-- The voucher without the signs of zeros. -/
def Voucher.dropZeroSigns (v : Voucher) : Voucher :=
  { v with details := v.details.map Detail.dropZeroSigns }

/-- The item without the sign of a zero. -/
def DeferredItem.dropZeroSigns (i : DeferredItem) : DeferredItem :=
  { i with value := i.value.map dropZeroSign }

/-- The quote without the sign of a zero. -/
def Quote.dropZeroSigns (q : Quote) : Quote :=
  { q with price := q.price.dropZeroSign }

instance : Kept VoucherKind id where
  ofJson?_toJson k := choice?_name (by decide) (by cases k <;> decide)
  toJson_ne_null _ := nofun

instance : Kept Detail Detail.dropZeroSigns where
  ofJson?_toJson d := by
    unfold instStoredDetail
    simp [Detail.dropZeroSigns]
  toJson_ne_null _ := nofun

instance : Kept Voucher Voucher.dropZeroSigns where
  ofJson?_toJson v := by
    unfold instStoredVoucher
    simp [Voucher.dropZeroSigns]
  toJson_ne_null _ := nofun

instance : Kept DeferredItem DeferredItem.dropZeroSigns where
  ofJson?_toJson i := by
    unfold instStoredDeferredItem
    simp [DeferredItem.dropZeroSigns]
  toJson_ne_null _ := nofun

instance : Kept Quote Quote.dropZeroSigns where
  ofJson?_toJson q := by
    unfold instStoredQuote
    simp [Quote.dropZeroSigns]
  toJson_ne_null _ := nofun

/-! ## Queries -/

instance : Kept UnaryOperator id where
  ofJson?_toJson op := choice?_name (by decide) (by cases op <;> decide)
  toJson_ne_null _ := nofun

instance : Kept BinaryOperator id where
  ofJson?_toJson op := choice?_name (by decide) (by cases op <;> decide)
  toJson_ne_null _ := nofun

namespace Query

/-- The query with other filters in the place of its own. -/
def mapFilters {α : Type} (g : α → α) : Query α → Query α
  | leaf f => leaf (g f)
  | unary op q => unary op (q.mapFilters g)
  | binary op l r => binary op (l.mapFilters g) (r.mapFilters g)
  | dangling op l => dangling op (l.mapFilters g)

@[simp] theorem mapFilters_id {α : Type} (q : Query α) : q.mapFilters id = q := by
  induction q with
  | leaf f => rfl
  | unary op q ih => rw [mapFilters, ih]
  | binary op l r ihl ihr => rw [mapFilters, ihl, ihr]
  | dangling op l ih => rw [mapFilters, ih]

variable {α : Type} [Stored α] {kept : α → α} [Kept α kept]

/-- How an operation with one operand is read, without the equations that its termination needs. -/
theorem ofJson?_unary (body : Json) :
    ofJson? (.object [("unary", body)]) =
      (body.record? ["op", "operand"]).bind fun o =>
        (o.field "op").bind fun op => (o.get? "operand").bind fun operand =>
          (ofJson? operand).map (unary (α := α) op) := by
  rw [ofJson?]
  split
  · next o ho =>
      rw [ho, Option.bind_some, Option.bind_eq_bind]
      refine congrArg _ (funext fun op => ?_)
      split
      · next operand hoperand =>
          rw [hoperand, Option.bind_some, Option.map_eq_bind]
          rfl
      · next hoperand => rw [hoperand, Option.bind_none]
  · next ho => rw [ho, Option.bind_none]

/-- How an operation with two operands is read. -/
theorem ofJson?_binary (body : Json) :
    ofJson? (.object [("binary", body)]) =
      (body.record? ["op", "left", "right"]).bind fun o =>
        (o.field "op").bind fun op => (o.get? "left").bind fun left =>
          (ofJson? left).bind fun l =>
            match o.get? "right" with
            | some .null => some (dangling (α := α) op l)
            | some right => (ofJson? right).map (binary op l)
            | none => if body.isObject then some (dangling op l) else none := by
  rw [ofJson?]
  split
  · next o ho =>
      rw [ho, Option.bind_some, Option.bind_eq_bind]
      refine congrArg _ (funext fun op => ?_)
      split
      · next left hleft =>
          rw [hleft, Option.bind_some, Option.bind_eq_bind]
          refine congrArg _ (funext fun l => ?_)
          split
          · next hright => rw [hright]; rfl
          · next right _ hright => simp [hright, Option.map_eq_bind]
          · next hright => rw [hright]; rfl
      · next hleft => rw [hleft, Option.bind_none]
  · next ho => rw [ho, Option.bind_none]

theorem toJson_ne_null (q : Query α) : q.toJson ≠ .null := by
  cases q <;> exact nofun

theorem ofJson?_toJson (q : Query α) : ofJson? q.toJson = some (q.mapFilters kept) := by
  induction q with
  | leaf f =>
      rw [toJson, ofJson?, Kept.ofJson?_toJson]
      rfl
  | unary op q ih =>
      rw [toJson, ofJson?_unary]
      simp [ih, mapFilters]
  | binary op l r ihl ihr =>
      rw [toJson, ofJson?_binary]
      simp [ihl, ihr, mapFilters, toJson_ne_null]
  | dangling op l ih =>
      rw [toJson, ofJson?_binary]
      simp [ih, mapFilters]

instance : Kept (Query α) (mapFilters kept) where
  ofJson?_toJson := ofJson?_toJson
  toJson_ne_null := toJson_ne_null

end Query

/-! ## Filters -/

/-- The filter without the sign of a zero. -/
def DetailFilter.dropZeroSigns (f : DetailFilter) : DetailFilter :=
  { f with fund := f.fund.map dropZeroSign }

/-- The filter without the signs of zeros. -/
def VoucherFilter.dropZeroSigns (f : VoucherFilter) : VoucherFilter :=
  { f with details := f.details.map (Query.mapFilters DetailFilter.dropZeroSigns) }

/-- The query without the signs of zeros. -/
def PostingQuery.dropZeroSigns (q : PostingQuery) : PostingQuery :=
  ⟨q.vouchers.map (Query.mapFilters VoucherFilter.dropZeroSigns),
    q.details.map (Query.mapFilters DetailFilter.dropZeroSigns)⟩

instance : Kept Direction id where
  ofJson?_toJson d := by
    show (Direction.ofInt d.toInt).toOption = some d
    rw [Direction.ofInt_toInt]
    rfl
  toJson_ne_null _ := nofun

instance : Kept TitleClass id where
  ofJson?_toJson c := choice?_name (by decide) (by cases c <;> decide)
  toJson_ne_null _ := nofun

instance : Kept DetailFilter DetailFilter.dropZeroSigns where
  ofJson?_toJson f := by
    unfold instStoredDetailFilter
    simp [DetailFilter.dropZeroSigns]
  toJson_ne_null _ := nofun

instance : Kept VoucherFilter VoucherFilter.dropZeroSigns where
  ofJson?_toJson f := by
    unfold instStoredVoucherFilter
    simp [VoucherFilter.dropZeroSigns]
  toJson_ne_null _ := nofun

instance : Kept DeferredFilter id where
  ofJson?_toJson f := by
    unfold instStoredDeferredFilter
    simp
  toJson_ne_null _ := nofun

instance : Kept PostingQuery PostingQuery.dropZeroSigns where
  ofJson?_toJson q := by
    unfold instStoredPostingQuery
    simp [PostingQuery.dropZeroSigns]
  toJson_ne_null _ := nofun

/-! ## Subtotals -/

namespace Subtotal

instance : Kept Level id where
  ofJson?_toJson l := by
    refine choice?_name (by decide) ?_
    cases l with
    | date g => cases g <;> decide
    | currency | title | subTitle | content | remark | user => decide
  toJson_ne_null _ := nofun

instance : Kept Gather id where
  ofJson?_toJson g := choice?_name (by decide) (by cases g <;> decide)
  toJson_ne_null _ := nofun

instance : Kept SeriesMode id where
  ofJson?_toJson m := by
    unfold instStoredSeriesMode
    cases m <;> simp [tagged?]
  toJson_ne_null m := by cases m <;> exact nofun

instance : Kept Conversion id where
  ofJson?_toJson c := by
    unfold instStoredConversion
    simp
  toJson_ne_null _ := nofun

instance : Kept Spec id where
  ofJson?_toJson s := by
    unfold instStoredSpec
    simp
  toJson_ne_null _ := nofun

end Subtotal

/-- The query without the signs of zeros. -/
def GroupedQuery.dropZeroSigns (q : GroupedQuery) : GroupedQuery :=
  { q with query := q.query.dropZeroSigns }

instance : Kept GroupedQuery GroupedQuery.dropZeroSigns where
  ofJson?_toJson q := by
    unfold instStoredGroupedQuery
    simp [GroupedQuery.dropZeroSigns]
  toJson_ne_null _ := nofun

/-! ## Named queries -/

namespace NamedQuery

/-- The query without the signs of zeros, also in everything below it. -/
def dropZeroSigns : NamedQuery → NamedQuery
  | grouped name c q => grouped name c.dropZeroSign q.dropZeroSigns
  | composite name c parts => composite name c.dropZeroSign (parts.map dropZeroSigns)
  | reference name c target => reference name c.dropZeroSign target

/-- How a named query is read. -/
theorem ofJson?_eq (j : Json) :
    ofJson? j =
      (j.record? ["name", "coefficient", "body"]).bind fun o =>
        (o.fieldD "name" "").bind fun name => (o.fieldD "coefficient" Decimal.one).bind fun c =>
          match o.get? "body" with
          | some (.object [("grouped", q)]) => (Stored.ofJson? q).map (grouped name c)
          | some (.object [("composite", .array parts)]) =>
              (listOfJson? parts).map (composite name c)
          | some (.object [("reference", target)]) =>
              (Stored.ofJson? target).map (reference name c)
          | _ => none := by
  rw [ofJson?]
  split
  · next o ho =>
      rw [ho, Option.bind_some, Option.bind_eq_bind]
      refine congrArg _ (funext fun name => ?_)
      rw [Option.bind_eq_bind]
      refine congrArg _ (funext fun c => ?_)
      split
      · next q hbody => simp [hbody, Option.map_eq_bind]
      · next parts hbody => simp [hbody, Option.map_eq_bind]
      · next target hbody => simp [hbody, Option.map_eq_bind]
      · next hgrouped hcomposite hreference =>
          split
          · next q hbody => exact (hgrouped q hbody).elim
          · next parts hbody => exact (hcomposite parts hbody).elim
          · next target hbody => exact (hreference target hbody).elim
          · rfl
  · next ho => rw [ho, Option.bind_none]

mutual

theorem ofJson?_toJson : ∀ q : NamedQuery, ofJson? q.toJson = some q.dropZeroSigns
  | grouped name c q => by
      rw [toJson, ofJson?_eq]
      simp [record, dropZeroSigns]
  | composite name c parts => by
      rw [toJson, ofJson?_eq]
      simp [record, dropZeroSigns, listOfJson?_listToJson parts]
  | reference name c target => by
      rw [toJson, ofJson?_eq]
      simp [record, dropZeroSigns]

theorem listOfJson?_listToJson :
    ∀ parts : List NamedQuery, listOfJson? (listToJson parts) = some (parts.map dropZeroSigns)
  | [] => by rw [listToJson, listOfJson?, List.map_nil]
  | q :: rest => by
      rw [listToJson, listOfJson?, ofJson?_toJson q, listOfJson?_listToJson rest, List.map_cons]
      rfl

end

instance : Kept NamedQuery dropZeroSigns where
  ofJson?_toJson := ofJson?_toJson
  toJson_ne_null q := by cases q <;> exact nofun

end NamedQuery

/-! ## Report settings -/

/-- Settings are read from what their parts are read from. The forms of the parts are left open,
    since the bound that a depth is compared with is too large to be unfolded. -/
theorem Report.Options.ofJson?_object {depth unbounded : Json} {maxDepth : UInt64}
    {allowUnbounded : Bool} (hdepth : ofJson? depth = some maxDepth)
    (hunbounded : ofJson? unbounded = some allowUnbounded) :
    ofJson? (.object [("max_depth", depth), ("allow_unbounded", unbounded)]) =
      some (⟨maxDepth, allowUnbounded⟩ : Report.Options) := by
  unfold instStoredOptions
  simp [Json.Members.read?, hdepth, hunbounded]

instance : Kept Report.Options id where
  ofJson?_toJson o :=
    Report.Options.ofJson?_object (Kept.ofJson?_toJson o.maxDepth)
      (Kept.ofJson?_toJson o.allowUnbounded)
  toJson_ne_null _ := nofun

/-! ## All requests -/

/-- Every value that is part of a request is read back from its stored form, and it is equal to
    what was stored: all that may differ is the sign of a zero, which neither changes the value of
    an amount nor its scale. -/
theorem stored_requests_read_back :
    (∀ d : Detail, ofJson? (toJson d) = some d.dropZeroSigns) ∧
    (∀ v : Voucher, ofJson? (toJson v) = some v.dropZeroSigns) ∧
    (∀ i : DeferredItem, ofJson? (toJson i) = some i.dropZeroSigns) ∧
    (∀ q : Quote, ofJson? (toJson q) = some q.dropZeroSigns) ∧
    (∀ r : DateRange, ofJson? (toJson r) = some r) ∧
    (∀ q : Query DetailFilter, ofJson? (toJson q) =
      some (q.mapFilters DetailFilter.dropZeroSigns)) ∧
    (∀ q : Query VoucherFilter, ofJson? (toJson q) =
      some (q.mapFilters VoucherFilter.dropZeroSigns)) ∧
    (∀ q : Query DeferredFilter, ofJson? (toJson q) = some q) ∧
    (∀ q : PostingQuery, ofJson? (toJson q) = some q.dropZeroSigns) ∧
    (∀ m : Subtotal.SeriesMode, ofJson? (toJson m) = some m) ∧
    (∀ c : Subtotal.Conversion, ofJson? (toJson c) = some c) ∧
    (∀ s : Subtotal.Spec, ofJson? (toJson s) = some s) ∧
    (∀ q : GroupedQuery, ofJson? (toJson q) = some q.dropZeroSigns) ∧
    (∀ q : NamedQuery, ofJson? (toJson q) = some q.dropZeroSigns) ∧
    (∀ o : Report.Options, ofJson? (toJson o) = some o) ∧
    ∀ a : Decimal, a.dropZeroSign.toRat = a.toRat ∧ a.dropZeroSign.scale = a.scale := by
  refine ⟨Kept.ofJson?_toJson, Kept.ofJson?_toJson, Kept.ofJson?_toJson, Kept.ofJson?_toJson,
    Kept.ofJson?_toJson, Kept.ofJson?_toJson, Kept.ofJson?_toJson, fun q => ?_,
    Kept.ofJson?_toJson, Kept.ofJson?_toJson, Kept.ofJson?_toJson, Kept.ofJson?_toJson,
    Kept.ofJson?_toJson, Kept.ofJson?_toJson, Kept.ofJson?_toJson,
    fun a => ⟨a.toRat_dropZeroSign, rfl⟩⟩
  rw [Kept.ofJson?_toJson, Query.mapFilters_id]

end Bookkeeping
