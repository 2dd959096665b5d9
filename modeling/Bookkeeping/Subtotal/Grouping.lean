import Bookkeeping.Exchange.Rates
import Bookkeeping.Subtotal.Tree

set_option autoImplicit false

/-! # Grouping postings

Postings are entered one after another into a tree of groups under construction: each walks down
along its keys, opens the groups that are missing, and adds its amount to every group on the way.
A group keeps an index of the places of its children, so a key leads to its child without a
search. That the index fits the children is `Group.Indexed`. Every entry keeps it so, and a `Grouping`
carries it: no key ever has two groups beside each other.

When vouchers are counted, a last-level group takes each voucher once, and a posting that is not
taken adds nothing above either. Finishing the tree computes running balances and drops the groups
that come to nothing, where that is asked for.

The first failure ends the construction: a rate that is missing, or a sum out of range. -/

namespace Bookkeeping.Subtotal

/-- A group under construction. -/
structure Group where
  key : Key
  fund : Decimal
  /-- The groups below, in the order in which they were opened. -/
  children : List Group
  /-- The place of each child, by its key. -/
  index : Keyed (Prod.fst : Key × Nat → Key)
  /-- The dated amounts that a last-level group has taken. -/
  movements : List Movement
  /-- The places of the vouchers that a last-level group has taken. -/
  vouchers : List Nat

namespace Group

/-- A group that has taken nothing yet. -/
def empty (key : Key) : Group := ⟨key, .zero, [], .empty, [], []⟩

/-! ## Entering amounts -/

/-- The place of the child with a key. -/
def place? (g : Group) (key : Key) : Option Nat := (g.index.find? key).map (·.2)

/-- The place of the child with a key; if there is none, one is opened behind the others. -/
def openChild (key : Key) (g : Group) : Group × Nat :=
  match g.place? key with
  | some place => (g, place)
  | none =>
      let place := g.children.length
      ({ g with children := g.children ++ [empty key], index := g.index.insert (key, place) }, place)

@[simp] theorem key_openChild (key : Key) (g : Group) : (g.openChild key).1.key = g.key := by
  unfold openChild
  split <;> rfl

@[simp] theorem fund_openChild (key : Key) (g : Group) : (g.openChild key).1.fund = g.fund := by
  unfold openChild
  split <;> rfl

/-- Takes an amount into a last-level group. Where a voucher is named, the group takes it once. -/
def take (movement : Movement) (voucher : Option Nat) (g : Group) :
    Except Failure (Group × Bool) := do
  if voucher.any (g.vouchers.contains ·) then
    return (g, false)
  else
    let fund ← g.fund.checkedAdd movement.2
    let g := { g with
      fund := fund
      movements := g.movements ++ [movement]
      vouchers := voucher.toList ++ g.vouchers }
    return (g, true)

/-- Enters an amount along a path of keys; tells whether the last group took it. -/
def enter (movement : Movement) (voucher : Option Nat) :
    List Key → Group → Except Failure (Group × Bool)
  | [], g => g.take movement voucher
  | key :: rest, g => do
      let (g, place) := g.openChild key
      -- the index names places of children only, so the default is never used
      let (child, taken) ← enter movement voucher rest (g.children.getD place (empty key))
      let g := { g with children := g.children.set place child }
      if taken then
        let fund ← g.fund.checkedAdd movement.2
        return ({ g with fund := fund }, true)
      else
        return (g, false)

/-! ## The index -/

theorem getElem?_concat_eq_some_iff {α : Type} {items : List α} {last a : α} {i : Nat} :
    (items ++ [last])[i]? = some a ↔ items[i]? = some a ∨ i = items.length ∧ last = a := by
  rcases Nat.lt_trichotomy i items.length with hlt | rfl | hgt
  · simp [List.getElem?_append_left hlt, Nat.ne_of_lt hlt]
  · simp
  · rw [List.getElem?_append_right (Nat.le_of_lt hgt), List.getElem?_singleton,
      if_neg (Nat.sub_ne_zero_of_lt hgt), List.getElem?_eq_none (Nat.le_of_lt hgt)]
    simp [Nat.ne_of_gt hgt]

/-- The keys of children stay as they are where one is replaced by another of the same key. -/
theorem map_key_set {children : List Group} {place : Nat} {old new : Group}
    (hold : children[place]? = some old) (hkey : new.key = old.key) :
    (children.set place new).map (·.key) = children.map (·.key) := by
  obtain ⟨hlt, rfl⟩ := List.getElem?_eq_some_iff.1 hold
  rw [List.map_set, hkey, ← List.map_set, List.set_getElem_self]

/-- Whether the index of a group, and that of every group below it, tells the places of its children
    by their keys and knows of no others. -/
inductive Indexed : Group → Prop where
  | intro {g : Group}
      (place?_iff : ∀ key place, g.place? key = some place ↔
        (g.children.map (·.key))[place]? = some key)
      (below : ∀ child ∈ g.children, child.Indexed) : g.Indexed

namespace Indexed

variable {g : Group}

theorem place?_eq_some_iff (h : g.Indexed) {key : Key} {place : Nat} :
    g.place? key = some place ↔ ∃ child, g.children[place]? = some child ∧ child.key = key := by
  obtain ⟨hplace, -⟩ := h
  rw [hplace, List.getElem?_map, Option.map_eq_some_iff]

theorem exists_place?_iff (h : g.Indexed) {key : Key} :
    (∃ place, g.place? key = some place) ↔ key ∈ g.children.map (·.key) := by
  obtain ⟨hplace, -⟩ := h
  simp only [hplace, List.mem_iff_getElem?]

theorem child (h : g.Indexed) {child : Group} (hmem : child ∈ g.children) : child.Indexed := by
  obtain ⟨-, hbelow⟩ := h
  exact hbelow child hmem

/-- No key stands twice among the children of a group. -/
theorem place_unique (h : g.Indexed) {i j : Nat} {a b : Group} (ha : g.children[i]? = some a)
    (hb : g.children[j]? = some b) (hkey : a.key = b.key) : i = j := by
  have hi := h.place?_eq_some_iff.2 ⟨a, ha, hkey⟩
  have hj := h.place?_eq_some_iff.2 ⟨b, hb, rfl⟩
  exact Option.some.inj (hi.symm.trans hj)

theorem empty (key : Key) : (Group.empty key).Indexed := by
  refine .intro (fun k place => ?_) fun child h => by cases h
  simp [place?, Group.empty]

/-- The amounts of a group do not matter. -/
theorem of_eq (h : g.Indexed) {other : Group} (hindex : other.index = g.index)
    (hchildren : other.children = g.children) : other.Indexed := by
  obtain ⟨hplace, hbelow⟩ := h
  refine .intro (fun key place => ?_) (hchildren ▸ hbelow)
  rw [place?, hindex, hchildren]
  exact hplace key place

/-- Opening a child leads to it, and the index learns the place of one that is new. -/
theorem openChild (h : g.Indexed) (key : Key) :
    (g.openChild key).1.Indexed ∧
      ∃ child, (g.openChild key).1.children[(g.openChild key).2]? = some child ∧
        child.key = key := by
  unfold Group.openChild
  cases hfound : g.place? key with
  | some place => exact ⟨h, h.place?_eq_some_iff.1 hfound⟩
  | none =>
      refine ⟨.intro (fun k place => ?_) ?_, Group.empty key, List.getElem?_concat_length, rfl⟩
      · obtain ⟨hplace, -⟩ := h
        rw [List.map_append, List.map_singleton, getElem?_concat_eq_some_iff, ← hplace,
          List.length_map, place?, Keyed.find?_insert]
        show Option.map _ (if key = k then _ else _) = _ ↔ _ ∨ _ ∧ key = k
        split
        · next hk => simp [← hk, hfound, eq_comm]
        · next hk => simp [hk, place?]
      · intro child hchild
        rcases List.mem_append.1 hchild with hold | hlast
        · exact h.child hold
        · rw [List.mem_singleton.1 hlast]
          exact .empty key

/-- A child may be replaced by one of the same key. -/
theorem set (h : g.Indexed) {place : Nat} {old new : Group} (hold : g.children[place]? = some old)
    (hkey : new.key = old.key) (hnew : new.Indexed) :
    ({ g with children := g.children.set place new } : Group).Indexed := by
  obtain ⟨hplace, hbelow⟩ := h
  refine .intro (fun key i => ?_) fun child hchild => ?_
  · show g.place? key = some i ↔ ((g.children.set place new).map (·.key))[i]? = some key
    rw [map_key_set hold hkey]
    exact hplace key i
  · rcases List.mem_or_eq_of_mem_set hchild with hmem | rfl
    · exact hbelow child hmem
    · exact hnew

/-- Taking an amount leaves the index and the key of a group as they are. -/
theorem take (h : g.Indexed) {movement : Movement} {voucher : Option Nat} {result : Group × Bool}
    (htake : g.take movement voucher = .ok result) : result.1.Indexed ∧ result.1.key = g.key := by
  unfold Group.take at htake
  split at htake
  · cases htake
    exact ⟨h, rfl⟩
  · obtain ⟨fund, -, hresult⟩ := bind_eq_ok.1 htake
    cases hresult
    exact ⟨h.of_eq rfl rfl, rfl⟩

/-- Entering an amount keeps the indices of all groups on the way in step with their children. -/
theorem enter {movement : Movement} {voucher : Option Nat} {keys : List Key} (h : g.Indexed)
    {result : Group × Bool} (henter : g.enter movement voucher keys = .ok result) :
    result.1.Indexed ∧ result.1.key = g.key := by
  induction keys generalizing g result with
  | nil => exact h.take henter
  | cons key rest ih =>
      obtain ⟨hopened, child, hchild, hkey⟩ := h.openChild key
      rw [← g.key_openChild key]
      rw [Group.enter] at henter
      generalize g.openChild key = opened at henter hopened hchild ⊢
      obtain ⟨opened, place⟩ := opened
      obtain ⟨⟨new, taken⟩, hnew, hrest⟩ := bind_eq_ok.1 henter
      rw [List.getD_eq_getElem?_getD, hchild, Option.getD_some] at hnew
      obtain ⟨hnewIndexed, hnewKey⟩ := ih (hopened.child (List.mem_of_getElem? hchild)) hnew
      have hset := hopened.set hchild hnewKey hnewIndexed
      dsimp only at hrest
      split at hrest
      · obtain ⟨fund, -, hresult⟩ := bind_eq_ok.1 hrest
        cases hresult
        exact ⟨hset.of_eq rfl rfl, rfl⟩
      · cases hrest
        exact ⟨hset, rfl⟩

end Indexed

/-! ## Finishing -/

/-- The running balance that a last-level group is asked for. -/
def readings (mode : SeriesMode) (movements : List Movement) : Except Failure (List Reading) :=
  match mode with
  | .none => .ok []
  | .changedDay => Series.changedDay movements
  | .everyDay range interval => Series.everyDay movements range interval

/-- The finished group, with the given number of levels below it; none if it is dropped. The
    group of everything is never dropped. Where groups are dropped, the sum of a group is that
    of the groups left below it. -/
def finish (spec : Spec) (isRoot : Bool) : Nat → Group → Except Failure (Option Tree)
  | 0, g => do
      if spec.prunes && !isRoot && g.fund.isNegligible then return none
      else return some ⟨g.key, g.fund, [], ← readings spec.series g.movements⟩
  | levels + 1, g => do
      let children ← g.children.filterMapM (finish spec false levels)
      if spec.prunes && !isRoot && children.isEmpty then return none
      else
        let fund ← if spec.prunes then Decimal.checkedSum (children.map (·.fund)) else .ok g.fund
        return some ⟨g.key, fund, children, []⟩

end Group

/-! ## All groups -/

/-- The group of everything, with all groups below it, under construction. -/
structure Grouping where
  root : Group
  indexed : root.Indexed

namespace Grouping

/-- The grouping of nothing. -/
def empty : Grouping := ⟨.empty .root, .empty .root⟩

/-- Enters an amount along a path of keys. -/
def enter (movement : Movement) (voucher : Option Nat) (keys : List Key) (all : Grouping) :
    Except Failure Grouping :=
  match henter : all.root.enter movement voucher keys with
  | .ok result => .ok ⟨result.1, (all.indexed.enter henter).1⟩
  | .error e => .error e

theorem map_root_enter (movement : Movement) (voucher : Option Nat) (keys : List Key)
    (all : Grouping) : (all.enter movement voucher keys).map (·.root) =
      (all.root.enter movement voucher keys).map (·.1) := by
  unfold enter
  split
  · next henter => exact congrArg (Except.map (·.1)) henter.symm
  · next henter => exact congrArg (Except.map (·.1)) henter.symm

theorem exists_enter_iff {movement : Movement} {voucher : Option Nat} {keys : List Key}
    {all : Grouping} {root : Group} :
    (∃ next, all.enter movement voucher keys = .ok next ∧ next.root = root) ↔
      ∃ taken, all.root.enter movement voucher keys = .ok (root, taken) := by
  rw [← map_eq_ok, map_root_enter, map_eq_ok]
  simp

theorem enter_eq_error {movement : Movement} {voucher : Option Nat} {keys : List Key}
    {all : Grouping} {e : Failure} : all.enter movement voucher keys = .error e ↔
      all.root.enter movement voucher keys = .error e := by
  rw [← map_eq_error (f := (·.root)), map_root_enter, map_eq_error]

end Grouping

/-! ## Subtotals -/

namespace Spec

/-- What a posting of an amount adds: one where things are counted, else the amount, converted
    if that is asked for. -/
def amountOf (spec : Spec) (rates : RateLookup) (p : Posting) (amount : Decimal) :
    Except Failure Decimal :=
  if spec.gather.isCount then .ok .one
  else
    match spec.conversion with
    | none => .ok amount
    | some c => rates.convert amount p.detail.currency c.currency (c.date.or p.date)

/-- The voucher to be counted once, where vouchers are counted. -/
def voucherOf (spec : Spec) (p : Posting) : Option Nat :=
  if spec.gather = .voucherCount then some p.voucherPlace else none

/-- The keys of a posting, one for each level. -/
def keysOf (spec : Spec) (p : Posting) : List Key :=
  spec.effectiveLevels.map (Key.of · p)

theorem length_keysOf (spec : Spec) (p : Posting) :
    (spec.keysOf p).length = spec.effectiveLevels.length :=
  List.length_map _

end Spec

/-- Enters one posting. -/
def enterPosting (spec : Spec) (rates : RateLookup) (all : Grouping) (entry : Posting × Decimal) :
    Except Failure Grouping := do
  let (p, amount) := entry
  let amount ← spec.amountOf rates p amount
  all.enter (p.date, amount) (spec.voucherOf p) (spec.keysOf p)

/-- The subtotal of postings and their amounts. -/
def ofPostings (spec : Spec) (rates : RateLookup) (entries : List (Posting × Decimal)) :
    Except Failure Tree := do
  let all ← entries.foldlM (enterPosting spec rates) Grouping.empty
  let tree? ← all.root.finish spec true spec.effectiveLevels.length
  return tree?.getD (Tree.empty .root)

end Bookkeeping.Subtotal
