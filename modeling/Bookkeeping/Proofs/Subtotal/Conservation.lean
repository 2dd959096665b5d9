import Bookkeeping.Proofs.Decimal.ExactArithmetic
import Bookkeeping.Subtotal.Grouping

set_option autoImplicit false

/-! # Sums are conserved where nothing is rounded

A subtotal computed with a given arithmetic: `ofPostingsWith`. With the arithmetic in use it is
the subtotal; with exact arithmetic every group above the last level is worth what the groups
right below it are worth together, groups that were dropped aside. -/

namespace Bookkeeping.Subtotal

namespace Group

/-! ## Grouping with a given arithmetic -/

/-- Takes an amount into a last-level group. -/
def takeWith (ar : Arithmetic) (movement : Movement) (voucher : Option Nat) (g : Group) :
    Except Failure (Group × Bool) := do
  if voucher.any (g.vouchers.contains ·) then
    return (g, false)
  else
    let fund ← ar.add g.fund movement.2
    let g := { g with
      fund := fund
      movements := g.movements ++ [movement]
      vouchers := voucher.toList ++ g.vouchers }
    return (g, true)

/-- Enters an amount along a path of keys. -/
def enterWith (ar : Arithmetic) (movement : Movement) (voucher : Option Nat) :
    List Key → Group → Except Failure (Group × Bool)
  | [], g => g.takeWith ar movement voucher
  | key :: rest, g => do
      let (g, place) := g.openChild key
      let (child, taken) ← enterWith ar movement voucher rest (g.children.getD place (empty key))
      let g := { g with children := g.children.set place child }
      if taken then
        let fund ← ar.add g.fund movement.2
        return ({ g with fund := fund }, true)
      else
        return (g, false)

/-- The finished group; none if it is dropped. -/
def finishWith (ar : Arithmetic) (spec : Spec) (isRoot : Bool) :
    Nat → Group → Except Failure (Option Tree)
  | 0, g => do
      if spec.prunes && !isRoot && g.fund.isNegligible then return none
      else return some ⟨g.key, g.fund, [], ← readings spec.series g.movements⟩
  | levels + 1, g => do
      let children ← g.children.filterMapM (finishWith ar spec false levels)
      if spec.prunes && !isRoot && children.isEmpty then return none
      else
        let fund ← if spec.prunes then ar.sum (children.map (·.fund)) else .ok g.fund
        return some ⟨g.key, fund, children, []⟩

theorem enterWith_checked (movement : Movement) (voucher : Option Nat) (keys : List Key)
    (g : Group) : g.enterWith .checked movement voucher keys = g.enter movement voucher keys := by
  induction keys generalizing g with
  | nil => rfl
  | cons key rest ih =>
      rw [enterWith, enter]
      simp only [ih]
      rfl

theorem finishWith_checked (spec : Spec) (isRoot : Bool) (levels : Nat) :
    finishWith .checked spec isRoot levels = finish spec isRoot levels := by
  induction levels generalizing isRoot with
  | zero => rfl
  | succ levels ih =>
      funext g
      rw [finishWith, finish, ih]
      rfl

end Group

/-- Enters one posting. -/
def enterPostingWith (ar : Arithmetic) (spec : Spec) (rates : RateLookup) (root : Group)
    (entry : Posting × Decimal) : Except Failure Group := do
  let amount ← spec.amountOf rates entry.1 entry.2
  let entered ←
    root.enterWith ar (entry.1.date, amount) (spec.voucherOf entry.1) (spec.keysOf entry.1)
  return entered.1

/-- The subtotal of postings and their amounts. -/
def ofPostingsWith (ar : Arithmetic) (spec : Spec) (rates : RateLookup)
    (entries : List (Posting × Decimal)) : Except Failure Tree := do
  let root ← entries.foldlM (enterPostingWith ar spec rates) (Group.empty .root)
  let tree? ← root.finishWith ar spec true spec.effectiveLevels.length
  return tree?.getD (Tree.empty .root)

theorem enterPostingWith_checked (spec : Spec) (rates : RateLookup) (all : Grouping)
    (entry : Posting × Decimal) : enterPostingWith .checked spec rates all.root entry =
      (enterPosting spec rates all entry).map (·.root) := by
  obtain ⟨p, amount⟩ := entry
  unfold enterPostingWith enterPosting
  dsimp only
  cases spec.amountOf rates p amount with
  | error e => rfl
  | ok amount =>
      rw [ok_bind, ok_bind, Grouping.map_root_enter, Group.enterWith_checked]
      cases all.root.enter (p.date, amount) (spec.voucherOf p) (spec.keysOf p) <;> rfl

theorem foldlM_enterPostingWith_checked (spec : Spec) (rates : RateLookup)
    (entries : List (Posting × Decimal)) (all : Grouping) :
    entries.foldlM (enterPostingWith .checked spec rates) all.root =
      (entries.foldlM (enterPosting spec rates) all).map (·.root) := by
  induction entries generalizing all with
  | nil => rfl
  | cons entry rest ih =>
      rw [List.foldlM_cons, List.foldlM_cons, enterPostingWith_checked]
      cases enterPosting spec rates all entry with
      | error e => rfl
      | ok next => exact ih next

theorem ofPostingsWith_checked (spec : Spec) (rates : RateLookup)
    (entries : List (Posting × Decimal)) :
    ofPostingsWith .checked spec rates entries = ofPostings spec rates entries := by
  have hroot : entries.foldlM (enterPostingWith .checked spec rates) (Group.empty .root) =
      (entries.foldlM (enterPosting spec rates) .empty).map (·.root) :=
    foldlM_enterPostingWith_checked spec rates entries .empty
  unfold ofPostingsWith ofPostings
  rw [hroot, Group.finishWith_checked]
  cases entries.foldlM (enterPosting spec rates) .empty <;> rfl

/-! ## What exact arithmetic confirms -/

namespace Group

theorem confirms_enterWith (movement : Movement) (voucher : Option Nat) (keys : List Key)
    (g : Group) :
    Confirms (g.enterWith .exact movement voucher keys) (g.enter movement voucher keys) := by
  induction keys generalizing g with
  | nil =>
      rw [enterWith, takeWith, enter, take]
      exact .ite (.refl _) ((Arithmetic.confirms_add _ _).bind fun fund => .refl _)
  | cons key rest ih =>
      rw [enterWith, enter]
      refine (ih _).bind fun result => ?_
      obtain ⟨child, taken⟩ := result
      exact .ite ((Arithmetic.confirms_add _ _).bind fun fund => .refl _) (.refl _)

theorem confirms_finishWith (spec : Spec) (isRoot : Bool) (levels : Nat) (g : Group) :
    Confirms (g.finishWith .exact spec isRoot levels) (g.finish spec isRoot levels) := by
  induction levels generalizing isRoot g with
  | zero => exact .refl _
  | succ levels ih =>
      rw [finishWith, finish]
      refine (Confirms.filterMapM (ih false) g.children).bind fun children => ?_
      refine .ite (.refl _) (.ite ?_ (.refl _))
      exact (Arithmetic.confirms_sum _).bind fun fund => .refl _

end Group

/-- A subtotal that exact arithmetic gives is the subtotal. -/
theorem confirms_ofPostingsWith (spec : Spec) (rates : RateLookup)
    (entries : List (Posting × Decimal)) :
    Confirms (ofPostingsWith .exact spec rates entries) (ofPostings spec rates entries) := by
  rw [← ofPostingsWith_checked]
  unfold ofPostingsWith
  refine .bind (.foldlM ?_ entries _) fun root => ?_
  · intro root entry
    refine (Confirms.refl _).bind fun amount => ?_
    rw [Group.enterWith_checked]
    exact (Group.confirms_enterWith _ _ _ root).bind fun result => .refl _
  · rw [Group.finishWith_checked]
    exact (Group.confirms_finishWith spec true _ root).bind fun tree => .refl _

/-! ## Conservation under construction -/

namespace Group

/-- Every group above the last level is worth what those right below it are worth together. -/
def Balanced : Nat → Group → Prop
  | 0, _ => True
  | levels + 1, g =>
      g.fund.toRat = (g.children.map (·.fund.toRat)).sum ∧
        ∀ child ∈ g.children, child.Balanced levels

theorem balanced_empty (levels : Nat) (key : Key) : (empty key).Balanced levels := by
  cases levels with
  | zero => trivial
  | succ levels =>
      refine ⟨Decimal.toRat_zero, ?_⟩
      intro child h
      cases h

/-- A child that is opened is worth nothing yet. -/
theorem Balanced.openChild {levels : Nat} {g : Group} (h : g.Balanced (levels + 1)) (key : Key) :
    (g.openChild key).1.Balanced (levels + 1) := by
  obtain ⟨hfund, hchildren⟩ := h
  unfold Group.openChild
  split
  · exact ⟨hfund, hchildren⟩
  · refine ⟨?_, ?_⟩
    · -- the new child adds zero to the sum
      show g.fund.toRat = _
      rw [hfund, List.map_append, List.sum_append]
      simp [empty]
    · intro child hchild
      rcases List.mem_append.1 hchild with hold | hlast
      · exact hchildren child hold
      · rw [List.mem_singleton.1 hlast]
        exact balanced_empty levels key

/-- Replacing one term of a sum changes the sum by the difference. -/
theorem sum_map_set {children : List Group} {place : Nat} (h : place < children.length)
    (new : Group) : ((children.set place new).map (·.fund.toRat)).sum =
      (children.map (·.fund.toRat)).sum + (new.fund.toRat - children[place].fund.toRat) := by
  obtain ⟨front, back, hsplit, _, hset⟩ :
      ∃ front back, children = front ++ children[place] :: back ∧ front.length = place ∧
        children.set place new = front ++ new :: back := List.exists_of_set h
  have hsum : (children.map (·.fund.toRat)).sum =
      ((front ++ children[place] :: back).map (·.fund.toRat)).sum := by rw [← hsplit]
  rw [hset, hsum]
  simp only [List.map_append, List.map_cons, List.sum_append, List.sum_cons]
  ring

/-- With exact arithmetic, entering an amount adds it to every group on the way. -/
theorem Balanced.enterWith {keys : List Key} {g : Group} (h : g.Balanced keys.length)
    (hindexed : g.Indexed) {movement : Movement} {voucher : Option Nat} {result : Group × Bool}
    (henter : g.enterWith .exact movement voucher keys = .ok result) :
    result.1.Balanced keys.length ∧
      result.1.fund.toRat = g.fund.toRat + if result.2 then movement.2.toRat else 0 := by
  induction keys generalizing g result with
  | nil =>
      rw [Group.enterWith, takeWith] at henter
      refine ⟨trivial, ?_⟩
      split at henter
      · cases henter
        simp
      · obtain ⟨fund, hfund, hresult⟩ := bind_eq_ok.1 henter
        cases hresult
        exact Arithmetic.toRat_of_exact_add hfund
  | cons key rest ih =>
      obtain ⟨hfund, hchildren⟩ := h.openChild key
      obtain ⟨hopened, child, hchild, -⟩ := hindexed.openChild key
      obtain ⟨hplace, -⟩ := List.getElem?_eq_some_iff.1 hchild
      rw [← g.fund_openChild key]
      rw [Group.enterWith] at henter
      generalize g.openChild key = opened at henter hfund hchildren hopened hplace ⊢
      obtain ⟨opened, place⟩ := opened
      dsimp only at henter hfund hchildren hopened hplace ⊢
      obtain ⟨⟨new, taken⟩, hnew, hrest⟩ := bind_eq_ok.1 henter
      rw [List.getD_eq_getElem _ _ hplace] at hnew
      have hmem : opened.children[place] ∈ opened.children := List.getElem_mem hplace
      obtain ⟨hnewBalanced, hnewFund⟩ := ih (hchildren _ hmem) (hopened.child hmem) hnew
      -- the sum over the children grows by what the child on the way has grown
      have hsum := sum_map_set hplace new
      rw [hnewFund, ← hfund, add_sub_cancel_left] at hsum
      have hall : ∀ child ∈ opened.children.set place new, child.Balanced rest.length := by
        intro child hchild
        rcases List.mem_or_eq_of_mem_set hchild with hold | rfl
        · exact hchildren child hold
        · exact hnewBalanced
      dsimp only at hrest hsum
      cases taken with
      | false =>
          cases hrest
          refine ⟨⟨?_, hall⟩, ?_⟩
          · rw [hsum, if_neg (by decide), add_zero]
          · show opened.fund.toRat = opened.fund.toRat + 0
            rw [add_zero]
      | true =>
          obtain ⟨fund, hadd, hresult⟩ := bind_eq_ok.1 hrest
          cases hresult
          have hvalue := Arithmetic.toRat_of_exact_add hadd
          refine ⟨⟨?_, hall⟩, ?_⟩
          · show fund.toRat = _
            rw [hsum, if_pos rfl, hvalue]
          · show fund.toRat = _
            rw [hvalue, if_pos rfl]

end Group

/-! ## Conservation in finished groups -/

/-- Every group above the last level is worth what those right below it are worth together. -/
def Tree.Balanced : Nat → Tree → Prop
  | 0, _ => True
  | levels + 1, t =>
      t.fund.toRat = (t.children.map (·.fund.toRat)).sum ∧
        ∀ child ∈ t.children, child.Balanced levels

/-- A group that is finished with exact arithmetic stays balanced: it is worth what it was, or
    what the groups left below it are worth where groups are dropped. -/
theorem Group.Balanced.finishWith {spec : Spec} {isRoot : Bool} {levels : Nat} {g : Group}
    (h : g.Balanced levels) {tree? : Option Tree}
    (hfinish : g.finishWith .exact spec isRoot levels = .ok tree?) :
    (∀ t, tree? = some t → t.Balanced levels) ∧
      (spec.prunes = false → ∃ t, tree? = some t ∧ t.fund = g.fund) := by
  induction levels generalizing g isRoot tree? with
  | zero =>
      refine ⟨fun _ _ => trivial, ?_⟩
      intro hkeep
      rw [Group.finishWith, hkeep] at hfinish
      obtain ⟨readings, _, hresult⟩ := bind_eq_ok.1 hfinish
      cases hresult
      exact ⟨_, rfl, rfl⟩
  | succ levels ih =>
      obtain ⟨hfund, hbelow⟩ := h
      rw [Group.finishWith] at hfinish
      obtain ⟨children, hchildren, hresult⟩ := bind_eq_ok.1 hfinish
      have hall : ∀ child ∈ children, child.Balanced levels := by
        obtain ⟨pairs, hsub, rfl, hpairs⟩ := kept_of_filterMapM hchildren
        intro child hchild
        obtain ⟨pair, hpair, rfl⟩ := List.mem_map.1 hchild
        have hmem := hsub.subset (List.mem_map_of_mem hpair)
        exact (ih (hbelow _ hmem) (hpairs pair hpair)).1 _ rfl
      cases hprunes : spec.prunes with
      | false =>
          rw [hprunes] at hresult
          cases hresult
          refine ⟨?_, fun _ => ⟨_, rfl, rfl⟩⟩
          intro t ht
          cases ht
          refine ⟨?_, hall⟩
          -- no child is dropped, and each is worth what it was
          have hkept : ∀ child ∈ g.children, ∀ t?,
              child.finishWith .exact spec false levels = .ok t? →
                ∃ t, t? = some t ∧ t.fund = child.fund :=
            fun child hmem _ hchild => (ih (hbelow child hmem) hchild).2 hprunes
          obtain ⟨pairs, hgroups, rfl, hpairs⟩ := pairs_of_filterMapM hkept hchildren
          rw [hfund, ← hgroups, List.map_map, List.map_map]
          refine congrArg List.sum (List.map_congr_left fun pair hpair => ?_)
          exact congrArg Decimal.toRat (hpairs pair hpair).symm
      | true =>
          refine ⟨?_, fun hkeep => absurd hkeep (by decide)⟩
          rintro t rfl
          rw [hprunes] at hresult
          split at hresult
          · cases hresult
          · obtain ⟨fund, hsum, ht⟩ := bind_eq_ok.1 hresult
            cases ht
            refine ⟨?_, hall⟩
            rw [Arithmetic.toRat_of_exact_sum hsum, List.map_map]
            rfl

/-- A subtotal computed with exact arithmetic is balanced. -/
theorem balanced_ofPostingsWith {spec : Spec} {rates : RateLookup}
    {entries : List (Posting × Decimal)} {tree : Tree}
    (h : ofPostingsWith .exact spec rates entries = .ok tree) :
    tree.Balanced spec.effectiveLevels.length := by
  obtain ⟨root, hroot, hrest⟩ := bind_eq_ok.1 h
  obtain ⟨tree?, hfinish, htree⟩ := bind_eq_ok.1 hrest
  cases htree
  suffices hbalanced : root.Balanced spec.effectiveLevels.length by
    cases tree? with
    | some t => exact (hbalanced.finishWith hfinish).1 t rfl
    | none =>
        cases spec.effectiveLevels.length with
        | zero => trivial
        | succ levels =>
            refine ⟨Decimal.toRat_zero, ?_⟩
            intro child hchild
            cases hchild
  suffices hkept : root.Balanced spec.effectiveLevels.length ∧ root.Indexed from hkept.1
  refine kept_of_foldlM (P := fun g => g.Balanced spec.effectiveLevels.length ∧ g.Indexed) ?_
    ⟨Group.balanced_empty _ .root, .empty .root⟩ hroot
  rintro group entry next ⟨hgroup, hindexed⟩ hnext
  obtain ⟨amount, _, hentered⟩ := bind_eq_ok.1 hnext
  obtain ⟨result, henter, hresult⟩ := bind_eq_ok.1 hentered
  cases hresult
  rw [← spec.length_keysOf entry.1] at hgroup
  have hstep := (hgroup.enterWith hindexed henter).1
  rw [spec.length_keysOf] at hstep
  -- what exact arithmetic enters is what is entered
  exact ⟨hstep, (hindexed.enter (Group.confirms_enterWith _ _ _ group result henter)).1⟩

end Bookkeeping.Subtotal
