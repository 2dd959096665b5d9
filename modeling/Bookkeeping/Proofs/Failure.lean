import Bookkeeping.Failure
import Mathlib.Data.List.Forall2

set_option autoImplicit false

/-! # Computations that may fail

Inversion of the runs that computations with failures are built from, and `OnlyFails`, which says
what a computation can fail with: it holds of a whole as soon as it holds of its steps. So do
`Confirms` and `ConfirmsUnless`, which compare two computations.

A sum of amounts is such a computation. It is built up from the left, so the sum of a list goes
through the sums of its beginnings. `Adds` says that all sums that can come up while parts of a list
are added up, in its order, stay within the range. -/

namespace Bookkeeping

variable {α β γ : Type}

/-! ## Results of runs -/

/-- A run over a list succeeds if every step does, and has the results of the steps. -/
theorem mapM_eq_ok {f : α → Except Failure β} {l : List α} {bs : List β} :
    l.mapM f = .ok bs ↔ List.Forall₂ (fun a b => f a = .ok b) l bs := by
  induction l generalizing bs with
  | nil => simp [eq_comm]
  | cons a rest ih =>
      rw [List.mapM_cons, bind_eq_ok, List.forall₂_cons_left_iff]
      refine exists_congr fun b => ?_
      rw [bind_eq_ok]
      constructor
      · rintro ⟨hb, more, hmore, hcons⟩
        cases hcons
        exact ⟨more, hb, ih.1 hmore, rfl⟩
      · rintro ⟨more, hb, hmore, rfl⟩
        exact ⟨hb, more, ih.2 hmore, rfl⟩

/-- What every step keeps, a run keeps. -/
theorem kept_of_foldlM {P : β → Prop} {f : β → α → Except Failure β} {l : List α}
    (hf : ∀ b a next, P b → f b a = .ok next → P next) {start result : β} (hstart : P start)
    (h : l.foldlM f start = .ok result) : P result := by
  induction l generalizing start with
  | nil =>
      cases h
      exact hstart
  | cons a rest ih =>
      rw [List.foldlM_cons] at h
      obtain ⟨next, hnext, hrest⟩ := bind_eq_ok.1 h
      exact ih (hf start a next hstart hnext) hrest

/-- What is kept comes from some of the steps, in their order. -/
theorem kept_of_filterMapM {f : α → Except Failure (Option β)} {l : List α} {bs : List β}
    (h : l.filterMapM f = .ok bs) :
    ∃ pairs : List (α × β), (pairs.map Prod.fst).Sublist l ∧ pairs.map Prod.snd = bs ∧
      ∀ pair ∈ pairs, f pair.1 = .ok (some pair.2) := by
  induction l generalizing bs with
  | nil =>
      cases h
      refine ⟨[], .slnil, rfl, ?_⟩
      intro pair hpair
      cases hpair
  | cons a rest ih =>
      rw [List.filterMapM_cons] at h
      obtain ⟨b?, hb, hrest⟩ := bind_eq_ok.1 h
      cases b? with
      | none =>
          obtain ⟨pairs, hsub, hbs, hpairs⟩ := ih hrest
          exact ⟨pairs, hsub.cons a, hbs, hpairs⟩
      | some b =>
          obtain ⟨more, hmore, hcons⟩ := bind_eq_ok.1 hrest
          cases hcons
          obtain ⟨pairs, hsub, rfl, hpairs⟩ := ih hmore
          refine ⟨(a, b) :: pairs, hsub.cons_cons a, rfl, ?_⟩
          intro pair hpair
          rcases List.mem_cons.1 hpair with rfl | hpair
          · exact hb
          · exact hpairs pair hpair

/-- Where every step that succeeds keeps something, the results stand for the steps one by one. -/
theorem pairs_of_filterMapM {f : α → Except Failure (Option β)} {Q : α → β → Prop} {l : List α}
    {bs : List β} (hf : ∀ a ∈ l, ∀ b?, f a = .ok b? → ∃ b, b? = some b ∧ Q a b)
    (h : l.filterMapM f = .ok bs) :
    ∃ pairs : List (α × β), pairs.map Prod.fst = l ∧ pairs.map Prod.snd = bs ∧
      ∀ pair ∈ pairs, Q pair.1 pair.2 := by
  induction l generalizing bs with
  | nil =>
      cases h
      refine ⟨[], rfl, rfl, ?_⟩
      intro pair hpair
      cases hpair
  | cons a rest ih =>
      rw [List.filterMapM_cons] at h
      obtain ⟨b?, hb, hrest⟩ := bind_eq_ok.1 h
      obtain ⟨b, rfl, hQ⟩ := hf a List.mem_cons_self b? hb
      obtain ⟨more, hmore, hcons⟩ := bind_eq_ok.1 hrest
      cases hcons
      obtain ⟨pairs, rfl, rfl, hpairs⟩ := ih (fun x hx => hf x (List.mem_cons_of_mem a hx)) hmore
      refine ⟨(a, b) :: pairs, rfl, rfl, ?_⟩
      intro pair hpair
      rcases List.mem_cons.1 hpair with rfl | hpair
      · exact hQ
      · exact hpairs pair hpair

/-- Where every step has a result and a test tells whether it is kept, the results of the steps
    that pass the test are kept. -/
theorem filterMapM_filter {f : α → Except Failure (Option β)} {Q : α → β → Prop} {p : α → Bool}
    {l : List α} (hf : ∀ a ∈ l, ∃ b, Q a b ∧ f a = .ok (if p a then some b else none)) :
    ∃ pairs : List (α × β), pairs.map Prod.fst = l.filter p ∧
      (∀ pair ∈ pairs, Q pair.1 pair.2) ∧ l.filterMapM f = .ok (pairs.map Prod.snd) := by
  induction l with
  | nil => exact ⟨[], rfl, by simp, rfl⟩
  | cons a rest ih =>
      obtain ⟨b, hQ, hb⟩ := hf a List.mem_cons_self
      obtain ⟨pairs, hfilter, hpairs, hrest⟩ := ih fun x hx => hf x (List.mem_cons_of_mem a hx)
      rw [List.filterMapM_cons, hb, ok_bind, hrest]
      cases hp : p a with
      | false => exact ⟨pairs, by rw [List.filter_cons_of_neg (by simp [hp]), hfilter], hpairs, rfl⟩
      | true =>
          refine ⟨(a, b) :: pairs, ?_, ?_, rfl⟩
          · rw [List.filter_cons_of_pos hp, List.map_cons, hfilter]
          · intro pair hpair
            rcases List.mem_cons.1 hpair with rfl | hpair
            · exact hQ
            · exact hpairs pair hpair

/-- Of two runs over one list, the first keeps all its results and the second one keeps what stands
    for those of them that pass a test. -/
theorem filterMapM_forall₂ {f g : α → Except Failure (Option β)} {R : β → β → Prop} {p : β → Bool}
    {l : List α} (h : ∀ a ∈ l, ∃ b c,
      R b c ∧ f a = .ok (some b) ∧ g a = .ok (if p b then some c else none)) :
    ∃ bs cs, l.filterMapM f = .ok bs ∧ l.filterMapM g = .ok cs ∧
      List.Forall₂ R (bs.filter p) cs := by
  induction l with
  | nil => exact ⟨[], [], rfl, rfl, .nil⟩
  | cons a rest ih =>
      obtain ⟨b, c, hR, hf, hg⟩ := h a List.mem_cons_self
      obtain ⟨bs, cs, hbs, hcs, hrest⟩ := ih fun x hx => h x (List.mem_cons_of_mem a hx)
      rw [List.filterMapM_cons, List.filterMapM_cons, hf, hg, ok_bind, ok_bind, hbs, hcs]
      by_cases hp : p b = true
      · refine ⟨b :: bs, c :: cs, rfl, by simp [hp], ?_⟩
        rw [List.filter_cons_of_pos hp]
        exact .cons hR hrest
      · refine ⟨b :: bs, cs, rfl, by simp [hp], ?_⟩
        rw [List.filter_cons_of_neg hp]
        exact hrest

theorem filterMapM_ok {f : α → Except Failure (Option β)} {l : List α}
    (hf : ∀ a ∈ l, ∃ b?, f a = .ok b?) : ∃ bs, l.filterMapM f = .ok bs := by
  induction l with
  | nil => exact ⟨[], rfl⟩
  | cons a rest ih =>
      obtain ⟨b?, hb⟩ := hf a List.mem_cons_self
      obtain ⟨bs, hbs⟩ := ih fun x hx => hf x (List.mem_cons_of_mem a hx)
      rw [List.filterMapM_cons, hb, ok_bind]
      cases b? with
      | none => exact ⟨bs, hbs⟩
      | some b => exact ⟨b :: bs, by rw [hbs]; rfl⟩

/-! ## What can go wrong -/

/-- Whatever the computation fails with satisfies `P`. -/
def OnlyFails (P : Failure → Prop) (x : Except Failure α) : Prop :=
  ∀ e, x = .error e → P e

namespace OnlyFails

variable {P : Failure → Prop}

theorem imp {Q : Failure → Prop} {x : Except Failure α} (hx : OnlyFails P x)
    (h : ∀ e, P e → Q e) : OnlyFails Q x :=
  fun e he => h e (hx e he)

theorem ok (a : α) : OnlyFails P (.ok a) := by
  intro e h
  cases h

theorem error {e : Failure} (h : P e) : OnlyFails P (.error e : Except Failure α) := by
  intro e' h'
  exact Except.error.inj h' ▸ h

theorem bind {x : Except Failure α} {f : α → Except Failure β} (hx : OnlyFails P x)
    (hf : ∀ a, OnlyFails P (f a)) : OnlyFails P (x >>= f) := by
  intro e h
  rcases bind_eq_error.1 h with hfail | ⟨a, _, hfail⟩
  · exact hx e hfail
  · exact hf a e hfail

theorem ite {c : Prop} [Decidable c] {x y : Except Failure α} (hx : OnlyFails P x)
    (hy : OnlyFails P y) : OnlyFails P (if c then x else y) := by
  split
  · exact hx
  · exact hy

theorem foldlM {f : β → α → Except Failure β} (hf : ∀ b a, OnlyFails P (f b a)) (l : List α)
    (b : β) : OnlyFails P (l.foldlM f b) := by
  induction l generalizing b with
  | nil => exact ok b
  | cons a rest ih => exact (hf b a).bind ih

theorem mapM {f : α → Except Failure β} (hf : ∀ a, OnlyFails P (f a)) (l : List α) :
    OnlyFails P (l.mapM f) := by
  induction l with
  | nil => exact ok []
  | cons a rest ih =>
      rw [List.mapM_cons]
      exact (hf a).bind fun b => ih.bind fun bs => ok (b :: bs)

theorem filterMapM {f : α → Except Failure (Option β)} (hf : ∀ a, OnlyFails P (f a))
    (l : List α) : OnlyFails P (l.filterMapM f) := by
  induction l with
  | nil => exact ok []
  | cons a rest ih =>
      rw [List.filterMapM_cons]
      refine (hf a).bind fun b => ?_
      cases b with
      | none => exact ih
      | some b => exact ih.bind fun bs => ok (b :: bs)

end OnlyFails

/-! ## The same result with fewer failures -/

/-- Whatever the first computation comes out with, the second one does as well. -/
def Confirms (x y : Except Failure α) : Prop :=
  ∀ a, x = .ok a → y = .ok a

namespace Confirms

theorem refl (x : Except Failure α) : Confirms x x :=
  fun _ h => h

theorem bind {x y : Except Failure α} {f g : α → Except Failure β} (hx : Confirms x y)
    (hf : ∀ a, Confirms (f a) (g a)) : Confirms (x >>= f) (y >>= g) := by
  intro b h
  obtain ⟨a, ha, hb⟩ := bind_eq_ok.1 h
  exact bind_eq_ok.2 ⟨a, hx a ha, hf a b hb⟩

theorem ite {c : Prop} [Decidable c] {x y x' y' : Except Failure α} (hx : Confirms x x')
    (hy : Confirms y y') : Confirms (if c then x else y) (if c then x' else y') := by
  split
  · exact hx
  · exact hy

theorem foldlM {f g : β → α → Except Failure β} (hf : ∀ b a, Confirms (f b a) (g b a))
    (l : List α) (b : β) : Confirms (l.foldlM f b) (l.foldlM g b) := by
  induction l generalizing b with
  | nil => exact refl _
  | cons a rest ih => exact (hf b a).bind ih

theorem filterMapM {f g : α → Except Failure (Option β)} (hf : ∀ a, Confirms (f a) (g a))
    (l : List α) : Confirms (l.filterMapM f) (l.filterMapM g) := by
  induction l with
  | nil => exact refl _
  | cons a rest ih =>
      rw [List.filterMapM_cons, List.filterMapM_cons]
      refine (hf a).bind fun b? => ?_
      cases b? with
      | none => exact ih
      | some b => exact ih.bind fun bs => refl _

end Confirms

/-! ## The same result unless something happens -/

/-- Whatever the first computation comes out with, the second one does as well, unless it fails
    with a failure of a kind. -/
def ConfirmsUnless (P : Failure → Prop) (x y : Except Failure α) : Prop :=
  ∀ a, x = .ok a → y = .ok a ∨ ∃ e, P e ∧ y = .error e

namespace ConfirmsUnless

variable {P : Failure → Prop}

theorem refl (x : Except Failure α) : ConfirmsUnless P x x :=
  fun _ h => .inl h

theorem of_error (e : Failure) (y : Except Failure α) : ConfirmsUnless P (.error e) y := by
  intro a h
  cases h

theorem of_stopped {e : Failure} (h : P e) (x : Except Failure α) :
    ConfirmsUnless P x (.error e) :=
  fun _ _ => .inr ⟨e, h, rfl⟩

theorem imp {Q : Failure → Prop} {x y : Except Failure α} (h : ConfirmsUnless P x y)
    (hPQ : ∀ e, P e → Q e) : ConfirmsUnless Q x y := by
  intro a ha
  rcases h a ha with hy | ⟨e, he, hy⟩
  · exact .inl hy
  · exact .inr ⟨e, hPQ e he, hy⟩

theorem bind {x y : Except Failure α} {f g : α → Except Failure β} (hx : ConfirmsUnless P x y)
    (hf : ∀ a, ConfirmsUnless P (f a) (g a)) : ConfirmsUnless P (x >>= f) (y >>= g) := by
  intro b h
  obtain ⟨a, ha, hb⟩ := bind_eq_ok.1 h
  rcases hx a ha with hy | ⟨e, he, hy⟩
  · rw [hy]
    exact hf a b hb
  · rw [hy]
    exact .inr ⟨e, he, rfl⟩

end ConfirmsUnless

namespace Decimal

/-! ## Arithmetic -/

theorem onlyFails_checkedAdd (a b : Decimal) : OnlyFails (· = .overflow) (a.checkedAdd b) := by
  unfold checkedAdd
  cases add a b with
  | none => exact .error rfl
  | some c => exact .ok c

theorem onlyFails_checkedMul (a b : Decimal) : OnlyFails (· = .overflow) (a.checkedMul b) := by
  unfold checkedMul
  cases mul a b with
  | none => exact .error rfl
  | some c => exact .ok c

theorem onlyFails_checkedSumFrom (start : Decimal) (amounts : List Decimal) :
    OnlyFails (· = .overflow) (checkedSumFrom start amounts) :=
  .foldlM onlyFails_checkedAdd amounts start

/-! ## Sums on the way -/

theorem checkedSumFrom_append (start : Decimal) (front back : List Decimal) :
    checkedSumFrom start (front ++ back) =
      (do checkedSumFrom (← checkedSumFrom start front) back) := by
  rw [checkedSumFrom, List.foldlM_append]
  rfl

theorem checkedSum_append_singleton (amounts : List Decimal) (amount : Decimal) :
    checkedSum (amounts ++ [amount]) = (do (← checkedSum amounts).checkedAdd amount) := by
  simp only [checkedSum, checkedSumFrom, List.foldlM_append, List.foldlM_cons, List.foldlM_nil,
    bind_pure]

/-- A sum that exists goes through the sum of every beginning. -/
theorem checkedSumFrom_front {start total : Decimal} {front back : List Decimal}
    (h : checkedSumFrom start (front ++ back) = .ok total) :
    ∃ sum, checkedSumFrom start front = .ok sum ∧ checkedSumFrom sum back = .ok total := by
  rw [checkedSumFrom_append] at h
  exact bind_eq_ok.1 h

/-- All sums of parts of the amounts, in their order, exist. -/
def Adds (amounts : List Decimal) : Prop :=
  ∀ part : List Decimal, part.Sublist amounts → ∃ fund, checkedSum part = .ok fund

theorem Adds.sublist {amounts part : List Decimal} (h : Adds amounts)
    (hsub : part.Sublist amounts) : Adds part :=
  fun inner hinner => h inner (hinner.trans hsub)

end Decimal

end Bookkeeping
