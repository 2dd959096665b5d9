import Bookkeeping.Query.VoucherFilter

set_option autoImplicit false

/-! # Compiled queries keep their meaning

`Query.Means` says what a query matches, by recursion over the tree and with nothing but logic:
a union is a disjunction, a complement a negation, and a binary operation without a right operand
is its left one. What a single filter matches is said field by field (`DetailFilter.Matches` and
its siblings); for vouchers this includes the meaning of the query over the details.

The compiler works through a list of tasks and writes one flat program. The proof goes through
`Query.code`, the same program by recursion over the tree: the pending tasks are exactly the code
that is still to be written, and running the code of a query pushes its truth value and leaves the
stack below alone. `Predicate.run?` is the run that stops when an instruction meets fewer operands
than it needs, so it also says that the values an empty stack stands for are never used. -/

namespace Bookkeeping

variable {α τ : Type}

/-! ## What filters and queries mean -/

/-- What a query matches, when `matched` tells what its filters match. -/
def Query.Means (matched : α → τ → Prop) (item : τ) : Query α → Prop
  | .leaf f => matched f item
  | .unary .identity q => q.Means matched item
  | .unary .complement q => ¬ q.Means matched item
  | .binary .union l r => l.Means matched item ∨ r.Means matched item
  | .binary .intersect l r => l.Means matched item ∧ r.Means matched item
  | .binary .subtract l r => l.Means matched item ∧ ¬ r.Means matched item
  | .dangling _ l => l.Means matched item

/-- The text that a text filter asks for; the empty one asks for a missing or empty text. -/
def MatchesText (filter text : Option String) : Prop :=
  ∀ wanted ∈ filter, if wanted = "" then text = none ∨ text = some "" else text = some wanted

/-- What a filter for details matches. -/
structure DetailFilter.Matches (f : DetailFilter) (d : Detail) : Prop where
  debit : f.direction = .debit → Decimal.zero < d.fund
  credit : f.direction = .credit → d.fund < Decimal.zero
  subTitle : ∀ s ∈ f.subTitle, d.subTitle = if s = 0 then none else some s
  titleClass : ∀ c ∈ f.titleClass, TitleClass.of? d.title = some c
  title : ∀ t ∈ f.title, d.title = t
  content : MatchesText f.content d.content
  remark : MatchesText f.remark d.remark
  fund : ∀ wanted ∈ f.fund, d.fund.near wanted = true
  currency : ∀ c ∈ f.currency, d.currency = c
  user : ∀ u ∈ f.user, d.user = u

/-- What a filter for vouchers matches. -/
structure VoucherFilter.Matches (f : VoucherFilter) (v : Voucher) : Prop where
  range : f.range.contains v.date = true
  kind : ∀ k ∈ f.kind, v.kind = k
  remark : MatchesText f.remark v.remark
  all : ∀ q ∈ f.details, f.forAll = true → ∀ d ∈ v.details, q.Means DetailFilter.Matches d
  any : ∀ q ∈ f.details, f.forAll = false → ∃ d ∈ v.details, q.Means DetailFilter.Matches d

/-- What a filter for deferred items matches. -/
structure DeferredFilter.Matches (f : DeferredFilter) (item : DeferredItem) : Prop where
  id : ∀ i ∈ f.id, item.id = some i
  name : MatchesText f.name item.name
  remark : MatchesText f.remark item.remark
  user : ∀ u ∈ f.user, item.user = some u

theorem acceptsText_iff (filter text : Option String) :
    acceptsText filter text = true ↔ MatchesText filter text := by
  cases filter with
  | none => simp [acceptsText, MatchesText]
  | some wanted =>
      by_cases hw : wanted = ""
      · cases text <;> simp [acceptsText, MatchesText, hw]
      · simp [acceptsText, MatchesText, hw]

theorem acceptsValue_iff {β : Type} [DecidableEq β] (filter : Option β) (value : β) :
    acceptsValue filter value = true ↔ ∀ wanted ∈ filter, value = wanted := by
  cases filter <;> simp [acceptsValue]

theorem DetailFilter.acceptsSubTitle_iff (filter subTitle : Option Int32) :
    acceptsSubTitle filter subTitle = true ↔
      ∀ s ∈ filter, subTitle = if s = 0 then none else some s := by
  cases filter with
  | none => simp [acceptsSubTitle]
  | some s =>
      by_cases hs : s = 0
      · simp [acceptsSubTitle, hs]
      · simp [acceptsSubTitle, hs]

theorem Direction.accepts_iff (direction : Direction) (fund : Decimal) :
    direction.accepts fund = true ↔
      (direction = .debit → Decimal.zero < fund) ∧ (direction = .credit → fund < Decimal.zero) := by
  have hz : Decimal.zero.coeff = 0 := rfl
  have hs : (tenPow Decimal.zero.scale : Int) = 1 := rfl
  cases direction <;>
    simp [accepts, Decimal.lt_def, hz, hs]

theorem DetailFilter.accepts_iff (f : DetailFilter) (d : Detail) :
    f.accepts d = true ↔ f.Matches d := by
  simp only [accepts, Bool.and_eq_true, Direction.accepts_iff, acceptsSubTitle_iff,
    acceptsValue_iff, acceptsText_iff, Option.all_eq_true, decide_eq_true_eq]
  constructor
  · rintro ⟨⟨⟨⟨⟨⟨⟨⟨⟨hdebit, hcredit⟩, hsub⟩, hclass⟩, htitle⟩, hcontent⟩, hremark⟩, hfund⟩,
      hcurrency⟩, huser⟩
    exact ⟨hdebit, hcredit, hsub, fun c hc => hclass c hc, htitle, hcontent, hremark,
      fun x hx => hfund x hx, hcurrency, huser⟩
  · intro h
    exact ⟨⟨⟨⟨⟨⟨⟨⟨⟨h.debit, h.credit⟩, h.subTitle⟩, fun c hc => h.titleClass c hc⟩, h.title⟩,
      h.content⟩, h.remark⟩, fun x hx => h.fund x hx⟩, h.currency⟩, h.user⟩

theorem DeferredFilter.accepts_iff (f : DeferredFilter) (item : DeferredItem) :
    f.accepts item = true ↔ f.Matches item := by
  simp only [accepts, Bool.and_eq_true, acceptsText_iff, Option.all_eq_true, decide_eq_true_eq]
  constructor
  · rintro ⟨⟨⟨hid, huser⟩, hname⟩, hremark⟩
    exact ⟨fun i hi => hid i hi, hname, hremark, fun u hu => huser u hu⟩
  · intro h
    exact ⟨⟨⟨fun i hi => h.id i hi, fun u hu => h.user u hu⟩, h.name⟩, h.remark⟩

/-- The truth value of a query is its meaning when that of every filter is. -/
theorem Query.holds_iff {accepts : α → τ → Bool} {matched : α → τ → Prop} {item : τ}
    (h : ∀ f, accepts f item = true ↔ matched f item) (q : Query α) :
    q.holds accepts item = true ↔ q.Means matched item := by
  induction q with
  | leaf f => exact h f
  | unary op q ih =>
      cases op with
      | identity => exact ih
      | complement => simp only [holds, Means, Bool.not_eq_true', ← ih, Bool.not_eq_true]
  | binary op l r ihl ihr =>
      cases op <;>
        simp only [holds, Means, BinaryOperator.combine, Bool.or_eq_true, Bool.and_eq_true,
          Bool.not_eq_true', ← ihl, ← ihr, Bool.not_eq_true]
  | dangling op l ih => exact ih

/-! ## The code of a query -/

/-- The program of a query, by recursion over the tree. -/
def Query.code [Filter α τ] : Query α → List (Instruction τ)
  | .leaf f => [.test (Filter.accepts f)]
  | .unary .identity q => q.code
  | .unary .complement q => q.code ++ [.negate]
  | .binary op l r => l.code ++ r.code ++ [.combine op]
  | .dangling _ l => l.code

/-- The instructions that a pending task stands for. -/
def Query.Task.code [Filter α τ] : Task α τ → List (Instruction τ)
  | .compile q => q.code
  | .emit i => [i]

theorem Query.program_push (d : Draft τ) (i : Instruction τ) :
    (d.push i).program.toList = d.program.toList ++ [i] := by
  cases i <;> simp [Draft.push]

/-- The compiler writes what it has drafted, then the code of the pending tasks in order. -/
theorem Query.program_compileAll [Filter α τ] (tasks : List (Task α τ)) (d : Draft τ) :
    (compileAll tasks d).program.toList = d.program.toList ++ tasks.flatMap Task.code := by
  fun_induction compileAll tasks d with
  | case1 d => simp
  | case2 d f rest ih => simp [ih, program_push, Task.code, Query.code]
  | case3 d q rest ih => simp [ih, Task.code, Query.code]
  | case4 d q rest ih => simp [ih, Task.code, Query.code]
  | case5 d op l r rest ih => simp [ih, Task.code, Query.code]
  | case6 d op l rest ih => simp [ih, Task.code, Query.code]
  | case7 d i rest ih => simp [ih, program_push, Task.code]

theorem Query.program_compile [Filter α τ] (q : Query α) :
    (q.compile : Predicate τ).program.toList = q.code := by
  simp [compile, program_compileAll, Task.code]

/-! ## Runs without underflow -/

namespace Predicate

/-- One instruction on a stack that holds all its operands; none if some are missing. -/
def checkedStep? (item : τ) : List Bool → Instruction τ → Option (List Bool)
  | stack, .test accepts => some (accepts item :: stack)
  | top :: rest, .negate => some ((!top) :: rest)
  | right :: left :: below, .combine op => some (op.combine left right :: below)
  | _, _ => none

/-- Runs a program; none as soon as an instruction lacks an operand. -/
def runFrom? (item : τ) (program : List (Instruction τ)) (stack : List Bool) :
    Option (List Bool) :=
  program.foldlM (checkedStep? item) stack

/-- The stack that a predicate leaves behind; none if an instruction ever lacks an operand. -/
def run? (p : Predicate τ) (item : τ) : Option (List Bool) :=
  runFrom? item p.program.toList []

theorem runFrom?_append (item : τ) (p q : List (Instruction τ)) (stack : List Bool) :
    runFrom? item (p ++ q) stack = (runFrom? item p stack).bind (runFrom? item q) :=
  List.foldlM_append

/-- Where no operand is missing, both kinds of step agree. -/
theorem step_eq_of_checkedStep? {item : τ} {stack after : List Bool} {i : Instruction τ}
    (h : checkedStep? item stack i = some after) : step item stack i = after := by
  unfold checkedStep? at h
  split at h
  · exact Option.some.inj h
  · exact Option.some.inj h
  · exact Option.some.inj h
  · exact absurd h (by simp)

theorem foldl_step_of_runFrom? {item : τ} {program : List (Instruction τ)}
    {stack after : List Bool} (h : runFrom? item program stack = some after) :
    program.foldl (step item) stack = after := by
  induction program generalizing stack with
  | nil => exact Option.some.inj h
  | cons i rest ih =>
      simp only [runFrom?, List.foldlM_cons, Option.bind_eq_bind, Option.bind_eq_some_iff] at h
      obtain ⟨next, hstep, hrest⟩ := h
      rw [List.foldl_cons, step_eq_of_checkedStep? hstep]
      exact ih hrest

theorem accepts_of_run? {p : Predicate τ} {item : τ} {b : Bool} (h : p.run? item = some [b]) :
    p.accepts item = b := by
  have hrun : p.program.toList.foldl (step item) [] = [b] := foldl_step_of_runFrom? h
  rw [accepts, ← Array.foldl_toList, hrun, pop]

end Predicate

/-! ## Correctness -/

/-- The code of a query pushes its truth value, whatever the stack holds. -/
theorem Query.runFrom?_code [Filter α τ] (item : τ) (q : Query α) (stack : List Bool) :
    Predicate.runFrom? item q.code stack = some (q.holds Filter.accepts item :: stack) := by
  induction q generalizing stack with
  | leaf f => rfl
  | unary op q ih =>
      cases op with
      | identity => exact ih stack
      | complement =>
          rw [code, Predicate.runFrom?_append, ih]
          rfl
  | binary op l r ihl ihr =>
      rw [code, Predicate.runFrom?_append, Predicate.runFrom?_append, ihl, Option.bind_some, ihr]
      rfl
  | dangling op l ih => exact ih stack

theorem Query.run?_compile [Filter α τ] (q : Query α) (item : τ) :
    (q.compile : Predicate τ).run? item = some [q.holds Filter.accepts item] := by
  rw [Predicate.run?, program_compile, runFrom?_code]

theorem Query.accepts_compile [Filter α τ] (q : Query α) (item : τ) :
    (q.compile : Predicate τ).accepts item = q.holds Filter.accepts item :=
  Predicate.accepts_of_run? (q.run?_compile item)

theorem VoucherFilter.accepts_iff (f : VoucherFilter) (v : Voucher) :
    f.accepts v = true ↔ f.Matches v := by
  have hquery : ∀ (q : Query DetailFilter) (d : Detail),
      q.compile.accepts d = true ↔ q.Means DetailFilter.Matches d := by
    intro q d
    rw [Query.accepts_compile]
    exact Query.holds_iff (fun f => f.accepts_iff d) q
  simp only [accepts, acceptsGiven, Bool.and_eq_true, acceptsText_iff, Option.all_eq_true,
    Option.map_eq_some_iff, decide_eq_true_eq]
  constructor
  · rintro ⟨⟨⟨hrange, hkind⟩, hremark⟩, hdetails⟩
    refine ⟨hrange, fun k hk => hkind k hk, hremark, ?_, ?_⟩
    · intro q hq hall d hd
      have h := hdetails _ ⟨q, hq, rfl⟩
      rw [if_pos hall, List.all_eq_true] at h
      exact (hquery q d).1 (h d hd)
    · intro q hq hany
      have h := hdetails _ ⟨q, hq, rfl⟩
      rw [if_neg (by simp [hany]), List.any_eq_true] at h
      obtain ⟨d, hd, hm⟩ := h
      exact ⟨d, hd, (hquery q d).1 hm⟩
  · intro h
    refine ⟨⟨⟨h.range, fun k hk => h.kind k hk⟩, h.remark⟩, ?_⟩
    rintro _ ⟨q, hq, rfl⟩
    -- the query is asked of every detail or of some detail, as the filter says
    by_cases hall : f.forAll = true
    · rw [if_pos hall, List.all_eq_true]
      exact fun d hd => (hquery q d).2 (h.all q hq hall d hd)
    · rw [if_neg hall, List.any_eq_true]
      obtain ⟨d, hd, hm⟩ := h.any q hq (by simpa using hall)
      exact ⟨d, hd, (hquery q d).2 hm⟩

/-- A compiled query answers with its meaning, and its run never lacks an operand and leaves
    exactly the answer on the stack. -/
theorem Query.compile_faithful [Filter α τ] {matched : α → τ → Prop}
    (h : ∀ f item, Filter.accepts f item = true ↔ matched f item) (q : Query α) (item : τ) :
    (q.compile.accepts item = true ↔ q.Means matched item) ∧
      q.compile.run? item = some [q.compile.accepts item] := by
  rw [run?_compile, accepts_compile]
  exact ⟨holds_iff (fun f => h f item) q, rfl⟩

/-- Compiling a query over details, vouchers or deferred items keeps its meaning: the program
    accepts just what the query means, no instruction ever lacks an operand, and one value is
    left at the end. -/
theorem Query.compile_preserves_meaning :
    (∀ (q : Query DetailFilter) (d : Detail),
      (q.compile.accepts d = true ↔ q.Means DetailFilter.Matches d) ∧
        q.compile.run? d = some [q.compile.accepts d]) ∧
    (∀ (q : Query VoucherFilter) (v : Voucher),
      (q.compile.accepts v = true ↔ q.Means VoucherFilter.Matches v) ∧
        q.compile.run? v = some [q.compile.accepts v]) ∧
    (∀ (q : Query DeferredFilter) (item : DeferredItem),
      (q.compile.accepts item = true ↔ q.Means DeferredFilter.Matches item) ∧
        q.compile.run? item = some [q.compile.accepts item]) :=
  ⟨compile_faithful DetailFilter.accepts_iff, compile_faithful VoucherFilter.accepts_iff,
    compile_faithful DeferredFilter.accepts_iff⟩

end Bookkeeping
