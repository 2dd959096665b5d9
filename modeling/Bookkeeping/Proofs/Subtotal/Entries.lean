import Bookkeeping.Subtotal.Grouping

set_option autoImplicit false

/-! # Entries and the groups they belong to

What grouping should come to, said on lists without any tree. An entry is what one posting brings
along: its keys, its dated amount and the voucher it is counted for. The entries of a group are
those whose keys lead into it, `within`, with the keys that are still to come; the groups right
below are named by `firstKeys`, in the order in which the entries come up with them.

Where vouchers are counted, only the first entry of a voucher with the same keys is taken; `taken`
keeps those. Being taken does not depend on the group from which one looks, `within_taken`. -/

namespace Bookkeeping.Subtotal

/-- What a posting brings along when it is entered. -/
structure Entry where
  /-- The keys of the groups that are still to be entered, outermost first. -/
  keys : List Key
  movement : Movement
  /-- The voucher that is to be counted once. -/
  voucher : Option Nat
deriving DecidableEq

/-- The entry of a posting with the amount that it adds. -/
def Spec.entryOf (spec : Spec) (p : Posting) (amount : Decimal) : Entry :=
  ⟨spec.keysOf p, (p.date, amount), spec.voucherOf p⟩

/-- The entries of postings with the amounts that they add. -/
def Spec.entriesOf (spec : Spec) (records : List (Posting × Decimal)) : List Entry :=
  records.map fun r => spec.entryOf r.1 r.2

theorem Spec.map_keys_entriesOf (spec : Spec) (records : List (Posting × Decimal)) :
    (spec.entriesOf records).map (·.keys) = (records.map (·.1)).map spec.keysOf := by
  rw [entriesOf, List.map_map, List.map_map]
  rfl

/-- The amounts of entries. -/
def amounts (es : List Entry) : List Decimal := es.map (·.movement.2)

/-! ## The entries of a group -/

/-- What is left of an entry inside the group of a key, if it belongs there. -/
def Entry.within? (key : Key) (e : Entry) : Option Entry :=
  match e.keys with
  | [] => none
  | k :: rest => if k = key then some { e with keys := rest } else none

/-- The entries of the group of a key. -/
def within (key : Key) (es : List Entry) : List Entry :=
  es.filterMap (Entry.within? key)

/-- The entries of the group at the end of a path of keys. -/
def withinPath : List Key → List Entry → List Entry
  | [], es => es
  | key :: rest, es => withinPath rest (within key es)

theorem within?_eq_some {key : Key} {e inner : Entry} :
    e.within? key = some inner ↔
      e.keys = key :: inner.keys ∧ inner.movement = e.movement ∧ inner.voucher = e.voucher := by
  obtain ⟨keys, movement, voucher⟩ := e
  obtain ⟨innerKeys, innerMovement, innerVoucher⟩ := inner
  cases keys with
  | nil => simp [Entry.within?]
  | cons k rest =>
      by_cases hk : k = key
      · simp [Entry.within?, hk, eq_comm]
      · simp [Entry.within?, hk]

/-- An entry belongs to one group of each level only. -/
theorem within?_eq_none_of_ne {key other : Key} {e inner : Entry}
    (h : e.within? key = some inner) (hne : other ≠ key) : e.within? other = none := by
  unfold Entry.within?
  rw [(within?_eq_some.1 h).1]
  exact if_neg hne.symm

theorem within?_ne_none {key : Key} {rest : List Key} {e : Entry}
    (h : (key :: rest).isPrefixOf e.keys = true) : e.within? key ≠ none := by
  unfold Entry.within?
  cases hkeys : e.keys with
  | nil => simp [hkeys] at h
  | cons k tail =>
      have hk : k = key := by
        rw [hkeys] at h
        exact (eq_of_beq (Bool.and_eq_true _ _ ▸ h).1).symm
      simp [hk]

theorem within_append (key : Key) (es others : List Entry) :
    within key (es ++ others) = within key es ++ within key others :=
  List.filterMap_append

theorem within_cons (key : Key) (e : Entry) (es : List Entry) :
    within key (e :: es) = (e.within? key).toList ++ within key es := by
  unfold within
  rw [List.filterMap_cons]
  cases e.within? key <;> rfl

theorem mem_within {key : Key} {es : List Entry} {inner : Entry} :
    inner ∈ within key es ↔ ∃ e ∈ es, e.within? key = some inner :=
  List.mem_filterMap

/-- The amounts within a group are among those above it. -/
theorem amounts_within_sublist (key : Key) (es : List Entry) :
    (amounts (within key es)).Sublist (amounts es) := by
  induction es with
  | nil => exact .slnil
  | cons e rest ih =>
      unfold within at ih ⊢
      rw [List.filterMap_cons]
      cases hin : e.within? key with
      | none => exact ih.cons e.movement.2
      | some inner =>
          have hamount : inner.movement.2 = e.movement.2 := by rw [(within?_eq_some.1 hin).2.1]
          simp only [amounts, List.map_cons, hamount] at ih ⊢
          exact ih.cons_cons e.movement.2

/-- Which entries belong to a group, and what keys they have left, is told by their keys. -/
theorem map_keys_within (key : Key) {es others : List Entry}
    (h : es.map (·.keys) = others.map (·.keys)) :
    (within key es).map (·.keys) = (within key others).map (·.keys) := by
  have hrest (e : Entry) : (e.within? key).map (·.keys) =
      if e.keys.head? = some key then some e.keys.tail else none := by
    obtain ⟨keys, movement, voucher⟩ := e
    cases keys with
    | nil => rfl
    | cons k rest => by_cases hk : k = key <;> simp [Entry.within?, hk]
  have hwithin (l : List Entry) : (within key l).map (·.keys) = (l.map (·.keys)).filterMap
      fun keys => if keys.head? = some key then some keys.tail else none := by
    rw [within, List.map_filterMap, List.filterMap_map]
    exact congrArg (List.filterMap · l) (funext hrest)
  rw [hwithin, hwithin, h]

/-- An entry joins the group of its first key, without that key. -/
theorem within_append_of_eq {key : Key} {e inner : Entry} (h : e.within? key = some inner)
    (es : List Entry) : within key (es ++ [e]) = within key es ++ [inner] := by
  rw [within_append]
  simp [within, h]

/-- An entry leaves the groups of other keys as they are. -/
theorem within_append_of_ne {key : Key} {e : Entry} (h : e.within? key = none)
    (es : List Entry) : within key (es ++ [e]) = within key es := by
  rw [within_append]
  simp [within, h]

/-- The entries of a group are those whose keys begin with its path. -/
theorem withinPath_eq (path : List Key) (es : List Entry) :
    withinPath path es = (es.filter fun e => path.isPrefixOf e.keys).map fun e =>
      { e with keys := e.keys.drop path.length } := by
  induction path generalizing es with
  | nil =>
      have hall : es.filter (fun e => ([] : List Key).isPrefixOf e.keys) = es :=
        List.filter_eq_self.2 fun e _ => List.isPrefixOf_nil_left
      rw [hall]
      simp [withinPath]
  | cons key rest ih =>
      rw [withinPath, ih]
      -- entry by entry; one outside the group of `key` is left out on both sides
      induction es with
      | nil => rfl
      | cons e others ihes =>
          rw [within_cons, List.filter_append, List.map_append, ihes, List.filter_cons]
          cases hin : e.within? key with
          | none =>
              rw [if_neg fun hstart => within?_ne_none hstart hin]
              rfl
          | some inner =>
              obtain ⟨hkeys, hmovement, hvoucher⟩ := within?_eq_some.1 hin
              have hstart : (key :: rest).isPrefixOf e.keys = rest.isPrefixOf inner.keys := by
                simp [hkeys]
              rw [hstart]
              split
              · next h => simp [h, hkeys, ← hmovement, ← hvoucher]
              · next h => simp [h]

/-! ## The groups right below -/

/-- The first keys of entries, each where it comes up first. -/
def firstKeys (es : List Entry) : List Key :=
  (es.filterMap fun e => e.keys.head?).eraseDups

theorem firstKeys_congr {es others : List Entry} (h : es.map (·.keys) = others.map (·.keys)) :
    firstKeys es = firstKeys others := by
  have hkeys (l : List Entry) :
      l.filterMap (fun e => e.keys.head?) = (l.map (·.keys)).filterMap (·.head?) := by
    rw [List.filterMap_map]
    rfl
  rw [firstKeys, firstKeys, hkeys, hkeys, h]

theorem mem_firstKeys {key : Key} {es : List Entry} : key ∈ firstKeys es ↔ within key es ≠ [] := by
  rw [firstKeys, List.mem_eraseDups, List.mem_filterMap]
  constructor
  · rintro ⟨e, he, hkey⟩
    obtain ⟨rest, hrest⟩ := List.head?_eq_some_iff.1 hkey
    have hinner : (⟨rest, e.movement, e.voucher⟩ : Entry) ∈ within key es :=
      mem_within.2 ⟨e, he, within?_eq_some.2 ⟨hrest, rfl, rfl⟩⟩
    exact List.ne_nil_of_mem hinner
  · intro hne
    obtain ⟨inner, hinner⟩ := List.exists_mem_of_ne_nil _ hne
    obtain ⟨e, he, hin⟩ := mem_within.1 hinner
    exact ⟨e, he, by rw [(within?_eq_some.1 hin).1, List.head?_cons]⟩

/-- A key that comes up again adds no group. -/
theorem firstKeys_append_of_mem {key : Key} {e inner : Entry} {es : List Entry}
    (h : e.within? key = some inner) (hkey : key ∈ firstKeys es) :
    firstKeys (es ++ [e]) = firstKeys es := by
  have hmem : key ∈ es.filterMap fun e => e.keys.head? := List.mem_eraseDups.1 hkey
  have hhead : e.keys.head? = some key := by rw [(within?_eq_some.1 h).1, List.head?_cons]
  rw [firstKeys, List.filterMap_append, List.eraseDups_append]
  simp [firstKeys, hhead, List.removeAll, List.mem_filterMap.1 hmem]

/-- A key that comes up for the first time adds its group behind the others. -/
theorem firstKeys_append_of_not_mem {key : Key} {e inner : Entry} {es : List Entry}
    (h : e.within? key = some inner) (hkey : key ∉ firstKeys es) :
    firstKeys (es ++ [e]) = firstKeys es ++ [key] := by
  have hmem : key ∉ es.filterMap fun e => e.keys.head? := fun hmem =>
    hkey (List.mem_eraseDups.2 hmem)
  have hhead : e.keys.head? = some key := by rw [(within?_eq_some.1 h).1, List.head?_cons]
  rw [firstKeys, List.filterMap_append, List.eraseDups_append]
  have hnew : [key].removeAll (es.filterMap fun e => e.keys.head?) = [key] := by
    rw [List.removeAll, List.filter_cons_of_pos (by simpa using hmem), List.filter_nil]
  simp only [List.filterMap_cons, hhead, List.filterMap_nil, firstKeys, hnew]
  rfl

theorem firstKeys_append {key : Key} {e inner : Entry} {es : List Entry}
    (h : e.within? key = some inner) :
    firstKeys (es ++ [e]) = if key ∈ firstKeys es then firstKeys es else firstKeys es ++ [key] := by
  split
  · next hkey => exact firstKeys_append_of_mem h hkey
  · next hkey => exact firstKeys_append_of_not_mem h hkey

theorem nodup_eraseDups (keys : List Key) : keys.eraseDups.Nodup := by
  match keys with
  | [] => exact List.nodup_nil
  | key :: rest =>
      have hlt : (rest.filter fun k => !k == key).length < rest.length + 1 :=
        Nat.lt_succ_of_le (List.length_filter_le _ _)
      rw [List.eraseDups_cons, List.nodup_cons]
      refine ⟨?_, nodup_eraseDups _⟩
      simp
termination_by keys.length

theorem nodup_firstKeys (es : List Entry) : (firstKeys es).Nodup :=
  nodup_eraseDups _

/-! ## The entries that are taken -/

/-- Whether an entry is for a voucher that came before with the same keys. -/
def isRepeated (before : List Entry) (e : Entry) : Bool :=
  e.voucher.isSome && before.any fun b => b.keys = e.keys && b.voucher = e.voucher

/-- The entries that are taken after others that came before. -/
def takenAfter (before : List Entry) : List Entry → List Entry
  | [] => []
  | e :: rest =>
      if isRepeated before e then takenAfter (before ++ [e]) rest
      else e :: takenAfter (before ++ [e]) rest

/-- The entries that are taken. -/
def taken (es : List Entry) : List Entry := takenAfter [] es

theorem takenAfter_append_singleton (before es : List Entry) (e : Entry) :
    takenAfter before (es ++ [e]) =
      if isRepeated (before ++ es) e then takenAfter before es
      else takenAfter before es ++ [e] := by
  induction es generalizing before with
  | nil => simp [takenAfter]
  | cons b rest ih =>
      rw [List.cons_append, takenAfter, takenAfter, ih, List.append_assoc]
      simp only [List.singleton_append]
      split <;> split <;> rfl

theorem taken_append_of_repeated {es : List Entry} {e : Entry} (h : isRepeated es e = true) :
    taken (es ++ [e]) = taken es := by
  rw [taken, takenAfter_append_singleton, List.nil_append, if_pos h, taken]

theorem taken_append_of_new {es : List Entry} {e : Entry} (h : isRepeated es e = false) :
    taken (es ++ [e]) = taken es ++ [e] := by
  rw [taken, takenAfter_append_singleton, List.nil_append, h, if_neg (by decide), taken]

theorem takenAfter_sublist (before es : List Entry) : (takenAfter before es).Sublist es := by
  induction es generalizing before with
  | nil => exact .slnil
  | cons e rest ih =>
      rw [takenAfter]
      split
      · exact (ih _).cons e
      · exact (ih _).cons_cons e

theorem taken_sublist (es : List Entry) : (taken es).Sublist es :=
  takenAfter_sublist [] es

theorem amounts_taken_sublist (es : List Entry) : (amounts (taken es)).Sublist (amounts es) :=
  (taken_sublist es).map _

/-- Where no vouchers are counted, everything is taken. -/
theorem taken_eq_self {es : List Entry} (h : ∀ e ∈ es, e.voucher = none) : taken es = es := by
  suffices hafter : ∀ before, takenAfter before es = es from hafter []
  induction es with
  | nil => exact fun _ => rfl
  | cons e rest ih =>
      intro before
      have hnew : isRepeated before e = false := by simp [isRepeated, h e List.mem_cons_self]
      rw [takenAfter, hnew, if_neg (by decide), ih fun b hb => h b (List.mem_cons_of_mem e hb)]

/-- Whether an entry repeats another can be told inside the group of its first key. -/
theorem isRepeated_within {key : Key} {e inner : Entry} (h : e.within? key = some inner)
    (before : List Entry) : isRepeated (within key before) inner = isRepeated before e := by
  obtain ⟨hkeys, _, hvoucher⟩ := within?_eq_some.1 h
  rw [Bool.eq_iff_iff]
  simp only [isRepeated, Bool.and_eq_true, List.any_eq_true, decide_eq_true_eq, hvoucher]
  refine and_congr_right fun _ => ⟨?_, ?_⟩
  · rintro ⟨b, hb, hsame⟩
    obtain ⟨original, horiginal, hin⟩ := mem_within.1 hb
    obtain ⟨hk, _, hv⟩ := within?_eq_some.1 hin
    exact ⟨original, horiginal, by rw [hk, hkeys, hsame.1], by rw [← hv, hsame.2]⟩
  · rintro ⟨b, hb, hsame⟩
    have hin : b.within? key = some ⟨inner.keys, b.movement, b.voucher⟩ :=
      within?_eq_some.2 ⟨hsame.1.trans hkeys, rfl, rfl⟩
    exact ⟨_, mem_within.2 ⟨b, hb, hin⟩, rfl, hsame.2⟩

/-- The entries taken within a group are those of the entries taken that belong to it. -/
theorem within_taken (key : Key) (es : List Entry) :
    within key (taken es) = taken (within key es) := by
  suffices hafter : ∀ before,
      within key (takenAfter before es) = takenAfter (within key before) (within key es) from
    hafter []
  induction es with
  | nil => exact fun _ => rfl
  | cons e rest ih =>
      intro before
      rw [takenAfter]
      cases hin : e.within? key with
      | none =>
          -- an entry of another group: whether it is taken changes nothing here
          have hstay : within key (before ++ [e]) = within key before :=
            within_append_of_ne hin before
          have hrest := ih (before ++ [e])
          rw [hstay] at hrest
          simp only [within, List.filterMap_cons, hin] at hrest ⊢
          split
          · exact hrest
          · rw [List.filterMap_cons, hin]
            exact hrest
      | some inner =>
          -- an entry of this group: it repeats one before it here if it does at all
          have hjoin : within key (before ++ [e]) = within key before ++ [inner] :=
            within_append_of_eq hin before
          have hrest := ih (before ++ [e])
          rw [hjoin] at hrest
          have hes : within key (e :: rest) = inner :: within key rest := by simp [within, hin]
          rw [hes, takenAfter, isRepeated_within hin, ← hrest]
          split
          · rfl
          · simp [within, hin]

end Bookkeeping.Subtotal
