import Bookkeeping.Proofs.Failure
import Bookkeeping.Proofs.Subtotal.Entries

set_option autoImplicit false

/-! # Grouping keeps every entry in its place

`Group.Holds` is the invariant of a group under construction: what it has taken, and which groups
stand below it, is what `taken`, `firstKeys` and `within` say of the entries so far. An entry finds
the right group because the indices fit, `Group.Indexed`.

Entering one more entry keeps the invariant, `Holds.enter`, and so a run over any entries does,
`holds_enterAll`. It fails only where an amount does not convert or a sum leaves the range, so it
succeeds where `Adds` holds of the amounts. -/

namespace Bookkeeping.Subtotal

open Decimal (Adds checkedSum_append_singleton)

/-! ## Sums -/

/-- The sum of the entries that are taken, added up in their order. -/
def Sums (es : List Entry) (fund : Decimal) : Prop :=
  Decimal.checkedSum (amounts (taken es)) = .ok fund

theorem sums_nil : Sums [] .zero := rfl

theorem Sums.append_of_repeated {es : List Entry} {e : Entry} {fund : Decimal} (h : Sums es fund)
    (hrepeated : isRepeated es e = true) : Sums (es ++ [e]) fund := by
  rw [Sums, taken_append_of_repeated hrepeated]
  exact h

/-- The sum with one more entry is one addition away. -/
theorem Sums.checkedAdd {es : List Entry} {e : Entry} {fund : Decimal} (h : Sums es fund)
    (hnew : isRepeated es e = false) :
    fund.checkedAdd e.movement.2 = Decimal.checkedSum (amounts (taken (es ++ [e]))) := by
  unfold Sums at h
  rw [taken_append_of_new hnew, amounts, List.map_append, List.map_singleton,
    checkedSum_append_singleton, ← amounts, h]
  rfl

theorem Sums.checkedAdd_ok {es : List Entry} {e : Entry} {fund : Decimal} (h : Sums es fund)
    (hadds : Adds (amounts (es ++ [e]))) : ∃ sum, fund.checkedAdd e.movement.2 = .ok sum := by
  cases hr : isRepeated es e with
  | false =>
      rw [h.checkedAdd hr]
      exact hadds _ ((taken_sublist _).map _)
  | true =>
      have hsub : (amounts (taken es) ++ [e.movement.2]).Sublist (amounts (es ++ [e])) := by
        rw [amounts, amounts, List.map_append, List.map_singleton]
        exact ((taken_sublist es).map _).append (List.Sublist.refl _)
      obtain ⟨sum, hsum⟩ := hadds _ hsub
      rw [checkedSum_append_singleton, h] at hsum
      exact ⟨sum, hsum⟩

namespace Group

/-! ## The invariant -/

/-- The children of a group stand for the given keys, one each, and `P` says what they hold. -/
structure Lists (P : List Entry → Group → Prop) (keys : List Key) (es : List Entry)
    (g : Group) : Prop where
  keys_eq : g.children.map (·.key) = keys
  holds : ∀ child ∈ g.children, P (within child.key es) child

/-- A group with so many levels below it holds entries: at the last level those that it has taken,
    above it the groups that they lead into. -/
def Holds : Nat → List Entry → Group → Prop
  | 0, es, g =>
      g.children = [] ∧ g.movements = (taken es).map (·.movement) ∧
        (∀ voucher, voucher ∈ g.vouchers ↔ ∃ e ∈ es, e.keys = [] ∧ e.voucher = some voucher) ∧
        Sums es g.fund
  | levels + 1, es, g => g.Lists (Holds levels) (firstKeys es) es ∧ Sums es g.fund

theorem Holds.sums {levels : Nat} {es : List Entry} {g : Group} (h : g.Holds levels es) :
    Sums es g.fund := by
  cases levels with
  | zero => exact h.2.2.2
  | succ levels => exact h.2

/-- A group that was just opened holds nothing. -/
theorem holds_empty (levels : Nat) (key : Key) : (empty key).Holds levels [] := by
  cases levels with
  | zero => exact ⟨rfl, rfl, by simp [empty], sums_nil⟩
  | succ levels =>
      refine ⟨⟨rfl, ?_⟩, sums_nil⟩
      intro child h
      cases h

/-! ## Opening a child -/

/-- Opening the child of a key adds it behind the others if it is new. -/
theorem Lists.openChild {P : List Entry → Group → Prop} {keys : List Key} {es : List Entry}
    {g : Group} (h : g.Lists P keys es) (hindexed : g.Indexed) (key : Key)
    (hempty : key ∉ keys → P (within key es) (empty key)) :
    (g.openChild key).1.Lists P (if key ∈ keys then keys else keys ++ [key]) es := by
  have hmem : (∃ place, g.place? key = some place) ↔ key ∈ keys :=
    h.keys_eq ▸ hindexed.exists_place?_iff
  unfold Group.openChild
  cases hfound : g.place? key with
  | some place =>
      rw [if_pos (hmem.1 ⟨place, hfound⟩)]
      exact h
  | none =>
      have hnew : key ∉ keys := by simp [← hmem, hfound]
      rw [if_neg hnew]
      refine ⟨?_, ?_⟩
      · rw [List.map_append, h.keys_eq]
        rfl
      · intro child hchild
        rcases List.mem_append.1 hchild with hold | hlast
        · exact h.holds child hold
        · rw [List.mem_singleton.1 hlast]
          exact hempty hnew

/-- A child may be replaced by one of the same key, which holds one entry more. -/
theorem Lists.set {P : List Entry → Group → Prop} {keys : List Key} {es : List Entry} {g : Group}
    (h : g.Lists P keys es) (hindexed : g.Indexed) {place : Nat} {old new : Group}
    {e inner : Entry} (hold : g.children[place]? = some old) (hkey : new.key = old.key)
    (hin : e.within? old.key = some inner) (hnew : P (within old.key es ++ [inner]) new) :
    ({ g with children := g.children.set place new } : Group).Lists P keys (es ++ [e]) := by
  refine ⟨(map_key_set hold hkey).trans h.keys_eq, fun child hchild => ?_⟩
  obtain ⟨i, hi⟩ := List.mem_iff_getElem?.1 hchild
  rw [List.getElem?_set] at hi
  split at hi
  · next heq =>
      split at hi
      · cases hi
        rw [hkey, within_append_of_eq hin]
        exact hnew
      · cases hi
  · next hne =>
      -- another child: its key is another one, since no key stands twice
      have hother : child.key ≠ old.key := fun heq => hne (hindexed.place_unique hold hi heq.symm)
      have hout : e.within? child.key = none := within?_eq_none_of_ne hin hother
      rw [within_append_of_ne hout]
      exact h.holds child (List.mem_of_getElem? hi)

/-! ## Entering an entry -/

/-- A last-level group takes an entry unless its voucher came before. -/
theorem Holds.take {es : List Entry} {g : Group} (h : g.Holds 0 es) (movement : Movement)
    (voucher : Option Nat) {result : Group × Bool} (htake : g.take movement voucher = .ok result) :
    result.1.Holds 0 (es ++ [⟨[], movement, voucher⟩]) ∧ result.1.key = g.key ∧
      result.2 = !isRepeated es ⟨[], movement, voucher⟩ := by
  obtain ⟨hchildren, hmovements, hvouchers, hsums⟩ := h
  generalize he : (⟨[], movement, voucher⟩ : Entry) = e
  have hkeys : e.keys = [] := by rw [← he]
  have hmovement : e.movement = movement := by rw [← he]
  have hvoucher : e.voucher = voucher := by rw [← he]
  have hrepeated : voucher.any (g.vouchers.contains ·) = isRepeated es e := by
    rw [Bool.eq_iff_iff, isRepeated, hvoucher, hkeys]
    cases voucher with
    | none => simp
    | some v => simp [hvouchers]
  unfold Group.take at htake
  rw [hrepeated] at htake
  cases hr : isRepeated es e with
  | true =>
      rw [hr, if_pos rfl] at htake
      cases htake
      refine ⟨⟨hchildren, ?_, ?_, hsums.append_of_repeated hr⟩, rfl, rfl⟩
      · rw [taken_append_of_repeated hr]
        exact hmovements
      · intro v
        rw [hvouchers]
        constructor
        · rintro ⟨b, hb, hsame⟩
          exact ⟨b, by simp [hb], hsame⟩
        · rintro ⟨b, hb, hbkeys, hbvoucher⟩
          rcases List.mem_append.1 hb with hold | hlast
          · exact ⟨b, hold, hbkeys, hbvoucher⟩
          · -- the entry itself repeats one before it
            rw [List.mem_singleton.1 hlast] at hbvoucher
            simp only [isRepeated, Bool.and_eq_true, List.any_eq_true, decide_eq_true_eq] at hr
            obtain ⟨_, first, hfirst, hfirstKeys, hfirstVoucher⟩ := hr
            exact ⟨first, hfirst, hfirstKeys.trans hkeys, hfirstVoucher.trans hbvoucher⟩
  | false =>
      rw [hr, if_neg (by decide)] at htake
      obtain ⟨fund, hfund, hresult⟩ := bind_eq_ok.1 htake
      cases hresult
      refine ⟨⟨hchildren, ?_, ?_, ?_⟩, rfl, rfl⟩
      · rw [taken_append_of_new hr, List.map_append, List.map_singleton, hmovement, hmovements]
      · intro v
        simp only [List.mem_append, Option.mem_toList, hvouchers, List.mem_singleton]
        constructor
        · rintro (hv | ⟨b, hb, hsame⟩)
          · exact ⟨e, .inr rfl, hkeys, hvoucher.trans hv⟩
          · exact ⟨b, .inl hb, hsame⟩
        · rintro ⟨b, hb | rfl, hbkeys, hbvoucher⟩
          · exact .inr ⟨b, hb, hbkeys, hbvoucher⟩
          · exact .inl (hvoucher.symm.trans hbvoucher)
      · rw [Sums, ← hsums.checkedAdd hr, hmovement]
        exact hfund

/-- The child that an entry leads into, opened if it is missing, holds what it should. -/
theorem Holds.openChild {levels : Nat} {es : List Entry} {g : Group} (h : g.Holds (levels + 1) es)
    (hindexed : g.Indexed) {key : Key} {e inner : Entry} (hin : e.within? key = some inner) :
    (g.openChild key).1.Lists (Holds levels) (firstKeys (es ++ [e])) es ∧
      ∃ child, (g.openChild key).1.children[(g.openChild key).2]? = some child ∧
        child.key = key ∧ child.Holds levels (within key es) := by
  -- a key that has not come up yet has no entries for its group to hold
  have hempty : key ∉ firstKeys es → (empty key).Holds levels (within key es) := by
    intro hnew
    rw [mem_firstKeys, Decidable.not_not] at hnew
    rw [hnew]
    exact holds_empty levels key
  have hlists := h.1.openChild hindexed key hempty
  obtain ⟨-, child, hchild, hkey⟩ := hindexed.openChild key
  have hholds := hlists.holds child (List.mem_of_getElem? hchild)
  rw [hkey] at hholds
  rw [← firstKeys_append hin] at hlists
  exact ⟨hlists, child, hchild, hkey, hholds⟩

/-- Entering an entry keeps the invariant at every level, and tells whether the entry is taken. -/
theorem Holds.enter {keys : List Key} {es : List Entry} {g : Group} (h : g.Holds keys.length es)
    (hindexed : g.Indexed) {movement : Movement} {voucher : Option Nat} {result : Group × Bool}
    (henter : g.enter movement voucher keys = .ok result) :
    result.1.Holds keys.length (es ++ [⟨keys, movement, voucher⟩]) ∧ result.1.key = g.key ∧
      result.2 = !isRepeated es ⟨keys, movement, voucher⟩ := by
  induction keys generalizing es g result with
  | nil => exact h.take movement voucher henter
  | cons key rest ih =>
      generalize he : (⟨key :: rest, movement, voucher⟩ : Entry) = e
      have hin : e.within? key = some ⟨rest, movement, voucher⟩ :=
        within?_eq_some.2 (by rw [← he]; exact ⟨rfl, rfl, rfl⟩)
      have hmovement : e.movement = movement := by rw [← he]
      have hsums := h.sums
      obtain ⟨hlists, child, hchild, hkey, hholds⟩ := h.openChild hindexed hin
      have hopened := (hindexed.openChild key).1
      rw [← g.key_openChild key]
      rw [← g.fund_openChild key] at hsums
      rw [Group.enter] at henter
      generalize g.openChild key = opened at henter hsums hchild hlists hopened ⊢
      obtain ⟨opened, place⟩ := opened
      dsimp only at henter hsums hchild hlists hopened ⊢
      obtain ⟨⟨new, accepted⟩, hnew, hrest⟩ := bind_eq_ok.1 henter
      rw [List.getD_eq_getElem?_getD, hchild, Option.getD_some] at hnew
      obtain ⟨hnewHolds, hnewKey, haccepted⟩ :=
        ih hholds (hopened.child (List.mem_of_getElem? hchild)) hnew
      rw [isRepeated_within hin] at haccepted
      -- the child is put back in its place with the entry in it
      have hset := hlists.set hopened hchild hnewKey (hkey ▸ hin) (hkey ▸ hnewHolds)
      dsimp only at haccepted hrest
      rw [haccepted] at hrest
      cases hr : isRepeated es e with
      | true =>
          rw [hr, if_neg (by decide)] at hrest
          cases hrest
          exact ⟨⟨hset, hsums.append_of_repeated hr⟩, rfl, rfl⟩
      | false =>
          rw [hr, if_pos (by decide)] at hrest
          obtain ⟨fund, hadd, hresult⟩ := bind_eq_ok.1 hrest
          cases hresult
          refine ⟨⟨⟨hset.keys_eq, hset.holds⟩, ?_⟩, rfl, rfl⟩
          show Sums (es ++ [e]) fund
          rw [Sums, ← hsums.checkedAdd hr, hmovement]
          exact hadd

/-! ## Entering succeeds -/

/-- An entry can be entered where all sums of the amounts so far exist. -/
theorem Holds.enter_ok {keys : List Key} {es : List Entry} {g : Group}
    (h : g.Holds keys.length es) (hindexed : g.Indexed) {movement : Movement}
    {voucher : Option Nat} (hadds : Adds (amounts (es ++ [⟨keys, movement, voucher⟩]))) :
    ∃ result, g.enter movement voucher keys = .ok result := by
  induction keys generalizing es g with
  | nil =>
      rw [Group.enter, Group.take]
      split
      · exact ⟨_, rfl⟩
      · obtain ⟨fund, hfund⟩ := h.sums.checkedAdd_ok hadds
        exact ⟨_, bind_eq_ok.2 ⟨fund, hfund, rfl⟩⟩
  | cons key rest ih =>
      generalize he : (⟨key :: rest, movement, voucher⟩ : Entry) = e at hadds
      have hin : e.within? key = some ⟨rest, movement, voucher⟩ :=
        within?_eq_some.2 (by rw [← he]; exact ⟨rfl, rfl, rfl⟩)
      have hmovement : e.movement = movement := by rw [← he]
      obtain ⟨-, child, hchild, -, hholds⟩ := h.openChild hindexed hin
      have hopened := (hindexed.openChild key).1
      have hfund := g.fund_openChild key
      have hinner : Adds (amounts (within key es ++ [⟨rest, movement, voucher⟩])) := by
        rw [← within_append_of_eq hin]
        exact hadds.sublist (amounts_within_sublist key _)
      obtain ⟨⟨new, accepted⟩, hnew⟩ :=
        ih hholds (hopened.child (List.mem_of_getElem? hchild)) hinner
      rw [Group.enter]
      generalize g.openChild key = opened at hchild hfund
      obtain ⟨opened, place⟩ := opened
      dsimp only at hchild hfund ⊢
      rw [List.getD_eq_getElem?_getD, hchild, Option.getD_some, hnew, ok_bind]
      dsimp only
      cases accepted with
      | false => exact ⟨_, rfl⟩
      | true =>
          obtain ⟨fund, hadd⟩ := h.sums.checkedAdd_ok hadds
          rw [if_pos rfl, hfund, ← hmovement, hadd]
          exact ⟨_, rfl⟩

end Group

/-! ## Entering all postings -/

/-- The postings with the amounts that they add, if every amount converts. -/
def Spec.convertAll (spec : Spec) (rates : RateLookup) (entries : List (Posting × Decimal)) :
    Except Failure (List (Posting × Decimal)) :=
  entries.mapM fun entry => do return (entry.1, ← spec.amountOf rates entry.1 entry.2)

theorem convertAll_cons {spec : Spec} {rates : RateLookup} {p : Posting} {amount : Decimal}
    {rest records : List (Posting × Decimal)} :
    spec.convertAll rates ((p, amount) :: rest) = .ok records ↔
      ∃ converted others, spec.amountOf rates p amount = .ok converted ∧
        spec.convertAll rates rest = .ok others ∧ records = (p, converted) :: others := by
  unfold Spec.convertAll
  rw [List.mapM_cons]
  simp only [bind_eq_ok, pure_eq_ok, Except.ok.injEq]
  constructor
  · rintro ⟨_, ⟨converted, hconverted, rfl⟩, others, hothers, rfl⟩
    exact ⟨converted, others, hconverted, hothers, rfl⟩
  · rintro ⟨converted, others, hconverted, hothers, rfl⟩
    exact ⟨_, ⟨converted, hconverted, rfl⟩, others, hothers, rfl⟩

/-- Converting amounts leaves the postings as they are. -/
theorem map_fst_convertAll {spec : Spec} {rates : RateLookup}
    {entries records : List (Posting × Decimal)} (h : spec.convertAll rates entries = .ok records) :
    records.map (·.1) = entries.map (·.1) := by
  induction entries generalizing records with
  | nil =>
      cases h
      rfl
  | cons entry rest ih =>
      obtain ⟨converted, others, -, hothers, rfl⟩ := convertAll_cons.1 h
      rw [List.map_cons, List.map_cons, ih hothers]

/-- Postings that add one each. -/
def ones (entries : List (Posting × Decimal)) : List (Posting × Decimal) :=
  entries.map fun entry => (entry.1, .one)

/-- Where things are counted, every posting adds one, whatever its amount and the rates are. -/
theorem convertAll_ones {spec : Spec} (hcount : spec.gather.isCount = true) (rates : RateLookup)
    (entries : List (Posting × Decimal)) : spec.convertAll rates entries = .ok (ones entries) := by
  induction entries with
  | nil => rfl
  | cons entry rest ih =>
      have hone : spec.amountOf rates entry.1 entry.2 = .ok .one := if_pos hcount
      exact convertAll_cons.2 ⟨.one, ones rest, hone, ih, rfl⟩

theorem Grouping.holds_empty (levels : Nat) : Grouping.empty.root.Holds levels [] :=
  Group.holds_empty levels .root

section

variable {spec : Spec} {rates : RateLookup} {entries records : List (Posting × Decimal)}
  {before : List Entry} {all all' : Grouping}

/-- A run over postings keeps the invariant of the group of everything. -/
theorem holds_enterAll (h : all.root.Holds spec.effectiveLevels.length before)
    (hrun : entries.foldlM (enterPosting spec rates) all = .ok all') :
    ∃ records, spec.convertAll rates entries = .ok records ∧ all'.root.key = all.root.key ∧
      all'.root.Holds spec.effectiveLevels.length (before ++ spec.entriesOf records) := by
  induction entries generalizing before all with
  | nil =>
      cases hrun
      exact ⟨[], rfl, rfl, by simpa [Spec.entriesOf] using h⟩
  | cons entry rest ih =>
      obtain ⟨p, amount⟩ := entry
      rw [List.foldlM_cons] at hrun
      obtain ⟨next, hnext, hrest⟩ := bind_eq_ok.1 hrun
      obtain ⟨converted, hconverted, hentered⟩ := bind_eq_ok.1 hnext
      obtain ⟨_, henter⟩ := Grouping.exists_enter_iff.1 ⟨next, hentered, rfl⟩
      rw [← spec.length_keysOf p] at h
      obtain ⟨hstep, hkey, _⟩ := h.enter all.indexed henter
      rw [spec.length_keysOf] at hstep
      obtain ⟨records, hrecords, hrootKey, hholds⟩ := ih hstep hrest
      refine ⟨(p, converted) :: records, ?_, hrootKey.trans hkey, ?_⟩
      · exact convertAll_cons.2 ⟨converted, records, hconverted, hrecords, rfl⟩
      · rw [List.append_assoc] at hholds
        exact hholds

/-- All postings can be entered where their amounts convert and all sums exist. -/
theorem enterAll_ok (h : all.root.Holds spec.effectiveLevels.length before)
    (hconvert : spec.convertAll rates entries = .ok records)
    (hadds : Adds (amounts (before ++ spec.entriesOf records))) :
    ∃ all', entries.foldlM (enterPosting spec rates) all = .ok all' := by
  induction entries generalizing before all records with
  | nil => exact ⟨all, rfl⟩
  | cons entry rest ih =>
      obtain ⟨p, amount⟩ := entry
      obtain ⟨converted, others, hconverted, hothers, rfl⟩ := convertAll_cons.1 hconvert
      have hsplit : before ++ spec.entriesOf ((p, converted) :: others) =
          (before ++ [spec.entryOf p converted]) ++ spec.entriesOf others := by
        simp [Spec.entriesOf]
      rw [hsplit] at hadds
      rw [← spec.length_keysOf p] at h
      have hstepAdds : Adds (amounts (before ++ [spec.entryOf p converted])) :=
        hadds.sublist ((List.sublist_append_left _ _).map _)
      obtain ⟨⟨root, taken⟩, henter⟩ := h.enter_ok all.indexed hstepAdds
      obtain ⟨hstep, _, _⟩ := h.enter all.indexed henter
      rw [spec.length_keysOf] at hstep
      obtain ⟨next, hentered, rfl⟩ := Grouping.exists_enter_iff.2 ⟨taken, henter⟩
      obtain ⟨all', hall'⟩ := ih hstep hothers hadds
      refine ⟨all', ?_⟩
      have hnext : enterPosting spec rates all (p, amount) = .ok next := by
        unfold enterPosting
        dsimp only
        rw [hconverted, ok_bind, hentered]
      rw [List.foldlM_cons, hnext]
      exact hall'

end

end Bookkeeping.Subtotal
