import Bookkeeping.Proofs.Report.Flattening
import Bookkeeping.Proofs.Report.Guards

set_option autoImplicit false

/-! # Options gate a report and change nothing in it

The options stop an expansion in two places only: on entering a query that lies too deep, and on
running a grouped query that has no bound. `Reporter.Stops` says where that happens. Of two runs
that differ in their options, the second one gives what the first one gives unless it is stopped.

A query that expands has a height, `Library.HasHeight`, and is stopped for its depth exactly where
the height is larger than the depth allowed. -/

namespace Bookkeeping

/-! ## Heights -/

mutual

/-- How many levels lie below a query: none below a grouped query, those of the parts below a
    composite, and one more than below the entry of a reference. -/
inductive Library.HasHeight (library : Library) : NamedQuery → Nat → Prop where
  | grouped (name : String) (k : Decimal) (query : GroupedQuery) :
      HasHeight library (.grouped name k query) 0
  | composite {name : String} {k : Decimal} {parts : List NamedQuery} {n : Nat}
      (hparts : PartsHaveHeight library parts n) : HasHeight library (.composite name k parts) n
  | reference {name target : String} {k : Decimal} {entry : NamedQuery} {n : Nat}
      (hget : library.get? target = some entry) (hentry : HasHeight library entry n) :
      HasHeight library (.reference name k target) (n + 1)

/-- How many levels parts take up: none if there are no parts, else one more than lie below the
    highest of them. -/
inductive Library.PartsHaveHeight (library : Library) : List NamedQuery → Nat → Prop where
  | nil : PartsHaveHeight library [] 0
  | cons {part : NamedQuery} {rest : List NamedQuery} {m n : Nat} (hpart : HasHeight library part m)
      (hrest : PartsHaveHeight library rest n) :
      PartsHaveHeight library (part :: rest) (max (m + 1) n)

end

namespace Library

variable {library : Library}

theorem HasHeight.unique {q : NamedQuery} {n m : Nat} (h : library.HasHeight q n)
    (h' : library.HasHeight q m) : n = m := by
  -- the induction is on how `n` came about, for queries and lists of them at once
  refine @HasHeight.rec library (fun q n _ => ∀ m, library.HasHeight q m → n = m)
    (fun parts n _ => ∀ m, library.PartsHaveHeight parts m → n = m)
    ?grouped ?composite ?reference ?nil ?cons q n h m h'
  case grouped =>
    intro name k query m h'
    cases h'
    rfl
  case composite =>
    intro name k parts n _ ih m h'
    cases h' with
    | composite hparts => exact ih m hparts
  case reference =>
    intro name target k entry n hget _ ih m h'
    cases h' with
    | reference hget' hentry =>
        obtain rfl := Option.some.inj (hget.symm.trans hget')
        rw [ih _ hentry]
  case nil =>
    intro m h'
    cases h'
    rfl
  case cons =>
    intro part rest m n _ _ ihpart ihrest m' h'
    cases h' with
    | cons hpart hrest => rw [ihpart _ hpart, ihrest _ hrest]

/-- Every part is lower than the parts are together. -/
theorem PartsHaveHeight.of_mem {parts : List NamedQuery} {n : Nat}
    (h : library.PartsHaveHeight parts n) {part : NamedQuery} (hmem : part ∈ parts) :
    ∃ m, library.HasHeight part m ∧ m < n := by
  induction parts generalizing n with
  | nil => cases hmem
  | cons first rest ih =>
      cases h with
      | cons hfirst hrest =>
          rcases List.mem_cons.1 hmem with rfl | hmem
          · exact ⟨_, hfirst, by omega⟩
          · obtain ⟨m, hm, hlt⟩ := ih hrest hmem
            exact ⟨m, hm, by omega⟩

/-- The grouped queries that a query runs: itself, those of its parts, or those of its entry. -/
inductive Runs (library : Library) : NamedQuery → GroupedQuery → Prop where
  | grouped (name : String) (k : Decimal) (query : GroupedQuery) :
      Runs library (.grouped name k query) query
  | part {name : String} {k : Decimal} {parts : List NamedQuery} {part : NamedQuery}
      {query : GroupedQuery} (hmem : part ∈ parts) (hpart : Runs library part query) :
      Runs library (.composite name k parts) query
  | entry {name target : String} {k : Decimal} {entry : NamedQuery} {query : GroupedQuery}
      (hget : library.get? target = some entry) (hentry : Runs library entry query) :
      Runs library (.reference name k target) query

/-- The query runs one that has no bound. -/
def RunsUnbounded (library : Library) (q : NamedQuery) : Prop :=
  ∃ query, library.Runs q query ∧ query.query.isUnbounded = true

end Library

namespace Reporter

/-- The same reporter with other options. -/
def withOptions (r : Reporter) (options : Report.Options) : Reporter :=
  { r with options := options }

/-- The expansion of a query at a depth is stopped with a failure for the sake of the options: too
    deep, or at a grouped query without a bound. -/
inductive Stops (r : Reporter) : Nat → NamedQuery → Failure → Prop where
  | deep {depth : Nat} (h : r.options.maxDepth.toNat < depth) (q : NamedQuery) :
      Stops r depth q (.depthExceeded r.options.maxDepth.toNat)
  | unbounded {query : GroupedQuery} (hquery : query.query.isUnbounded = true)
      (hrefuse : r.options.allowUnbounded = false) (depth : Nat) (name : String) (k : Decimal) :
      Stops r depth (.grouped name k query) (.refused .unbounded)
  | part {depth : Nat} {name : String} {k : Decimal} {parts : List NamedQuery} {part : NamedQuery}
      {e : Failure} (hmem : part ∈ parts) (hpart : Stops r (depth + 1) part e) :
      Stops r depth (.composite name k parts) e
  | entry {depth : Nat} {name target : String} {k : Decimal} {entry : NamedQuery} {e : Failure}
      (hget : r.library.get? target = some entry) (hentry : Stops r (depth + 1) entry e) :
      Stops r depth (.reference name k target) e

variable {r : Reporter}

/-- What stops an expansion: a query that lies too deep, or one without a bound. -/
theorem Stops.reason {depth : Nat} {q : NamedQuery} {e : Failure} (h : r.Stops depth q e) {n : Nat}
    (hheight : r.library.HasHeight q n) :
    e = .depthExceeded r.options.maxDepth.toNat ∧ r.options.maxDepth.toNat < depth + n ∨
      e = .refused .unbounded ∧ r.library.RunsUnbounded q ∧ r.options.allowUnbounded = false := by
  induction h generalizing n with
  | deep h q => exact .inl ⟨rfl, by omega⟩
  | @unbounded query hquery hrefuse depth name k =>
      exact .inr ⟨rfl, ⟨query, .grouped name k query, hquery⟩, hrefuse⟩
  | part hmem _ ih =>
      cases hheight with
      | composite hparts =>
          obtain ⟨m, hpart, hlt⟩ := hparts.of_mem hmem
          rcases ih hpart with ⟨he, hdeep⟩ | ⟨he, ⟨query, hruns, hquery⟩, hrefuse⟩
          · exact .inl ⟨he, by omega⟩
          · exact .inr ⟨he, ⟨query, .part hmem hruns, hquery⟩, hrefuse⟩
  | entry hget _ ih =>
      cases hheight with
      | reference hget' hentry =>
          obtain rfl := Option.some.inj (hget.symm.trans hget')
          rcases ih hentry with ⟨he, hdeep⟩ | ⟨he, ⟨query, hruns, hquery⟩, hrefuse⟩
          · exact .inl ⟨he, by omega⟩
          · exact .inr ⟨he, ⟨query, .entry hget hruns, hquery⟩, hrefuse⟩

/-! ## One run -/

/-- A query that expands at a depth has a height that is within the depth allowed. -/
theorem hasHeight_expandWith (ar : Arithmetic) (r : Reporter) :
    (∀ (path : String) (coefficient : Decimal) (depth : Nat) (visiting : List String)
      (q : NamedQuery) (report : Report),
      r.expandWith ar path coefficient depth visiting q = .ok report →
        ∃ n, r.library.HasHeight q n ∧ depth + n ≤ r.options.maxDepth.toNat) ∧
    (∀ (path : String) (coefficient : Decimal) (depth : Nat) (visiting : List String)
      (total : Decimal) (parts : List NamedQuery) (result : Decimal × List String),
      r.partsWith ar path coefficient depth visiting total parts = .ok result →
        ∃ n, r.library.PartsHaveHeight parts n ∧ n ≤ r.options.maxDepth.toNat + 1 - depth) := by
  apply expandWith.mutual_induct r
  case case1 =>
    intro path coefficient depth visiting q hdepth report h
    rw [expandWith_deep hdepth] at h
    cases h
  case case2 =>
    intro path coefficient depth visiting hdepth name k query report _
    exact ⟨0, .grouped name k query, by omega⟩
  case case3 =>
    intro path coefficient depth visiting hdepth name k parts ih report h
    rw [expandWith_composite hdepth] at h
    obtain ⟨result, hparts, _⟩ := bind_eq_ok.1 h
    obtain ⟨n, hn, hle⟩ := ih result hparts
    exact ⟨n, .composite hn, by omega⟩
  case case4 =>
    intro path coefficient depth visiting hdepth name k target hget report h
    rw [expandWith_unknown hdepth hget] at h
    cases h
  case case5 =>
    intro path coefficient depth visiting hdepth name k target entry hget hin report h
    rw [expandWith_cyclic hdepth hget (by simpa using hin)] at h
    cases h
  case case6 =>
    intro path coefficient depth visiting hdepth name k target entry hget hnot ih report h
    rw [expandWith_reference hdepth hget (by simpa using hnot)] at h
    obtain ⟨weight, _, hentry⟩ := bind_eq_ok.1 h
    obtain ⟨n, hn, hle⟩ := ih weight report hentry
    exact ⟨n + 1, .reference hget hn, by omega⟩
  case case7 =>
    intro path coefficient depth visiting total result _
    exact ⟨0, .nil, Nat.zero_le _⟩
  case case8 =>
    intro path coefficient depth visiting total part rest ihpart ihrest result h
    rw [partsWith_cons] at h
    obtain ⟨weight, _, h⟩ := bind_eq_ok.1 h
    obtain ⟨report, hreport, h⟩ := bind_eq_ok.1 h
    obtain ⟨next, _, h⟩ := bind_eq_ok.1 h
    obtain ⟨below, hbelow, _⟩ := bind_eq_ok.1 h
    obtain ⟨m, hm, hle⟩ := ihpart weight report hreport
    obtain ⟨n, hn, hle'⟩ := ihrest next below hbelow
    exact ⟨max (m + 1) n, .cons hm hn, by omega⟩

/-- A query that expands runs no query without a bound unless that is allowed. -/
theorem Expands.allows {visiting : List String} {q : NamedQuery} {query : GroupedQuery}
    (h : r.Expands visiting q) (hruns : r.library.Runs q query) :
    (query.query.isUnbounded && !r.options.allowUnbounded) = false := by
  induction hruns generalizing visiting with
  | grouped name k query =>
      obtain ⟨path, coefficient, depth, report, h⟩ := h
      by_cases hdepth : r.options.maxDepth.toNat < depth
      · rw [expandWith_deep hdepth] at h
        cases h
      · rw [expandWith_grouped hdepth, subtotalWith_checked] at h
        exact (subtotal_eq_ok.1 h).1
  | part hmem _ ih => exact ih (h.part hmem)
  | entry hget _ ih =>
      obtain ⟨_, entry, hget', hentry⟩ := h.entry
      obtain rfl := Option.some.inj (hget.symm.trans hget')
      exact ih hentry

/-! ## Two runs -/

section

variable (options : Report.Options)

theorem confirmsUnless_subtotal (depth : Nat) (name : String) (k : Decimal) (query : GroupedQuery)
    (path : String) (coefficient : Decimal) :
    ConfirmsUnless ((r.withOptions options).Stops depth (.grouped name k query))
      (r.subtotal query path coefficient)
      ((r.withOptions options).subtotal query path coefficient) := by
  intro report h
  cases hguard : query.query.isUnbounded && !(r.withOptions options).options.allowUnbounded with
  | false => exact .inl (subtotal_eq_ok.2 ⟨hguard, (subtotal_eq_ok.1 h).2⟩)
  | true =>
      obtain ⟨hquery, hrefuse⟩ := Bool.and_eq_true_iff.1 hguard
      have hrefused : (r.withOptions options).options.allowUnbounded = false := by
        simpa using hrefuse
      exact .inr ⟨_, .unbounded hquery hrefused depth name k, subtotal_refused hguard⟩

/-- Where the other options allow no query at the depth, the expansion is stopped right there. -/
theorem confirmsUnless_of_shallow {x : Except Failure Report} {path : String}
    {coefficient : Decimal} {depth : Nat} {visiting : List String} {q : NamedQuery}
    (h : ¬ (r.withOptions options).options.maxDepth.toNat < depth →
      ConfirmsUnless ((r.withOptions options).Stops depth q) x
        ((r.withOptions options).expandWith .checked path coefficient depth visiting q)) :
    ConfirmsUnless ((r.withOptions options).Stops depth q) x
      ((r.withOptions options).expandWith .checked path coefficient depth visiting q) := by
  by_cases hdeep : (r.withOptions options).options.maxDepth.toNat < depth
  · rw [expandWith_deep hdeep]
    exact .of_stopped (.deep hdeep q) x
  · exact h hdeep

/-- Under other options an expansion gives what it gives under the first ones, unless it is
    stopped. -/
theorem confirmsUnless_expandWith (r : Reporter) :
    (∀ (path : String) (coefficient : Decimal) (depth : Nat) (visiting : List String)
      (q : NamedQuery), ConfirmsUnless ((r.withOptions options).Stops depth q)
        (r.expandWith .checked path coefficient depth visiting q)
        ((r.withOptions options).expandWith .checked path coefficient depth visiting q)) ∧
    (∀ (path : String) (coefficient : Decimal) (depth : Nat) (visiting : List String)
      (total : Decimal) (parts : List NamedQuery),
      ConfirmsUnless (fun e => ∃ part ∈ parts, (r.withOptions options).Stops depth part e)
        (r.partsWith .checked path coefficient depth visiting total parts)
        ((r.withOptions options).partsWith .checked path coefficient depth visiting total
          parts)) := by
  apply expandWith.mutual_induct r
  case case1 =>
    intro path coefficient depth visiting q hdepth
    rw [expandWith_deep hdepth]
    exact .of_error _ _
  case case2 =>
    intro path coefficient depth visiting hdepth name k query
    refine confirmsUnless_of_shallow options fun hdeep => ?_
    rw [expandWith_grouped hdepth, expandWith_grouped hdeep,
      subtotalWith_checked, subtotalWith_checked]
    exact confirmsUnless_subtotal options depth name k query path coefficient
  case case3 =>
    intro path coefficient depth visiting hdepth name k parts ih
    refine confirmsUnless_of_shallow options fun hdeep => ?_
    rw [expandWith_composite hdepth, expandWith_composite hdeep]
    refine (ih.imp ?_).bind fun result => .refl _
    rintro e ⟨part, hmem, hpart⟩
    exact .part hmem hpart
  case case4 =>
    intro path coefficient depth visiting hdepth name k target hget
    rw [expandWith_unknown hdepth hget]
    exact .of_error _ _
  case case5 =>
    intro path coefficient depth visiting hdepth name k target entry hget hin
    rw [expandWith_cyclic hdepth hget (by simpa using hin)]
    exact .of_error _ _
  case case6 =>
    intro path coefficient depth visiting hdepth name k target entry hget hnot ih
    have hnot : target ∉ visiting := by simpa using hnot
    refine confirmsUnless_of_shallow options fun hdeep => ?_
    rw [expandWith_reference hdepth hget hnot,
      expandWith_reference hdeep hget hnot]
    exact (ConfirmsUnless.refl _).bind fun weight => (ih weight).imp fun e => .entry hget
  case case7 =>
    intro path coefficient depth visiting total
    rw [partsWith_nil, partsWith_nil]
    exact .refl _
  case case8 =>
    intro path coefficient depth visiting total part rest ihpart ihrest
    rw [partsWith_cons, partsWith_cons]
    refine (ConfirmsUnless.refl _).bind fun weight => ((ihpart weight).imp ?_).bind fun report =>
      (ConfirmsUnless.refl _).bind fun next => ((ihrest next).imp ?_).bind fun _ => .refl _
    · intro e hpart
      exact ⟨part, List.mem_cons_self, hpart⟩
    · rintro e ⟨later, hmem, hlater⟩
      exact ⟨later, List.mem_cons_of_mem part hmem, hlater⟩

end

theorem options_of_report_eq_ok {q : NamedQuery} {report : Report} (h : r.report q = .ok report) :
    ∃ n, r.library.HasHeight q n ∧ n ≤ r.options.maxDepth.toNat ∧
      (r.library.RunsUnbounded q → r.options.allowUnbounded = true) := by
  rw [← reportWith_checked] at h
  obtain ⟨weight, _, hbody⟩ := bind_eq_ok.1 h
  obtain ⟨n, hheight, hle⟩ := (hasHeight_expandWith .checked r).1 _ _ _ _ _ report hbody
  refine ⟨n, hheight, by omega, ?_⟩
  rintro ⟨query, hruns, hquery⟩
  have hexpands : r.Expands [] q := ⟨_, weight, 0, report, hbody⟩
  simpa [hquery] using hexpands.allows hruns

/-- Under other options a report is the same, or the query is too high, or it runs a query without
    a bound that the other options refuse. -/
theorem report_withOptions {q : NamedQuery} {report : Report} (h : r.report q = .ok report)
    {n : Nat} (hheight : r.library.HasHeight q n) (options : Report.Options) :
    (r.withOptions options).report q = .ok report ∧ n ≤ options.maxDepth.toNat ∧
        (r.library.RunsUnbounded q → options.allowUnbounded = true) ∨
      (r.withOptions options).report q = .error (.depthExceeded options.maxDepth.toNat) ∧
        options.maxDepth.toNat < n ∨
      (r.withOptions options).report q = .error (.refused .unbounded) ∧
        r.library.RunsUnbounded q ∧ options.allowUnbounded = false := by
  rw [← reportWith_checked] at h
  obtain ⟨weight, hweight, hbody⟩ := bind_eq_ok.1 h
  have hother : (r.withOptions options).report q =
      (r.withOptions options).expandWith .checked (Report.joinPath "" q.name) weight 0 [] q := by
    rw [← reportWith_checked, reportWith, hweight]
    rfl
  rcases (confirmsUnless_expandWith options r).1 _ _ _ _ _ report hbody with
    hsame | ⟨e, hstop, hfail⟩
  · rw [← hother] at hsame
    obtain ⟨m, hm, hle, hallowed⟩ := options_of_report_eq_ok hsame
    obtain rfl := hheight.unique hm
    exact .inl ⟨hsame, hle, hallowed⟩
  · rw [← hother] at hfail
    rcases hstop.reason hheight with ⟨rfl, hdeep⟩ | ⟨rfl, hrefused⟩
    · exact .inr (.inl ⟨hfail, hdeep.trans_eq (Nat.zero_add n)⟩)
    · exact .inr (.inr ⟨hfail, hrefused⟩)

/-- A report does not depend on the options, as long as there is one. Options that allow more give
    the same; the depth has to be the height of the query at least; and where queries without a
    bound are refused, none must be run. -/
theorem options_only_gate (r : Reporter) (q : NamedQuery) (report : Report)
    (hreport : r.report q = .ok report) :
    (∀ options : Report.Options, r.options.maxDepth ≤ options.maxDepth →
      (r.options.allowUnbounded = true → options.allowUnbounded = true) →
        (r.withOptions options).report q = .ok report) ∧
    (∃ height, (∀ n, r.library.HasHeight q n ↔ n = height) ∧
      ∀ maxDepth : UInt64,
        (r.withOptions ⟨maxDepth, r.options.allowUnbounded⟩).report q =
          if height ≤ maxDepth.toNat then .ok report
          else .error (.depthExceeded maxDepth.toNat)) ∧
    (r.options.allowUnbounded = true →
      (¬ r.library.RunsUnbounded q →
        (r.withOptions ⟨r.options.maxDepth, false⟩).report q = .ok report) ∧
      (r.library.RunsUnbounded q →
        (r.withOptions ⟨r.options.maxDepth, false⟩).report q = .error (.refused .unbounded))) := by
  obtain ⟨height, hheight, hle, hallowed⟩ := options_of_report_eq_ok hreport
  have hcases := report_withOptions hreport hheight
  refine ⟨fun options hdepth hallow => ?_, ⟨height, fun n => ?_, fun maxDepth => ?_⟩,
    fun _ => ⟨fun hbounded => ?_, fun hunbounded => ?_⟩⟩
  · have hdepth := UInt64.le_iff_toNat_le.1 hdepth
    rcases hcases options with ⟨hsame, _⟩ | ⟨_, hdeep⟩ | ⟨_, hunbounded, hrefuse⟩
    · exact hsame
    · omega
    · rw [hallow (hallowed hunbounded)] at hrefuse
      cases hrefuse
  · constructor
    · exact fun hn => hn.unique hheight
    · rintro rfl
      exact hheight
  · rcases hcases ⟨maxDepth, r.options.allowUnbounded⟩ with
      ⟨hsame, hshallow, _⟩ | ⟨hfail, hdeep⟩ | ⟨_, hunbounded, hrefuse⟩
    · rw [if_pos hshallow, hsame]
    · rw [if_neg (Nat.not_le.2 hdeep), hfail]
    · rw [hallowed hunbounded] at hrefuse
      cases hrefuse
  · rcases hcases ⟨r.options.maxDepth, false⟩ with ⟨hsame, _⟩ | ⟨_, hdeep⟩ | ⟨_, hunbounded, _⟩
    · exact hsame
    · exact absurd hle (Nat.not_le.2 hdeep)
    · exact absurd hunbounded hbounded
  · rcases hcases ⟨r.options.maxDepth, false⟩ with ⟨_, _, hallow⟩ | ⟨_, hdeep⟩ | ⟨hfail, _⟩
    · cases hallow hunbounded
    · exact absurd hle (Nat.not_le.2 hdeep)
    · exact hfail

/-- The fee lies one level below the query for it, and it is looked for in the whole ledger. -/
theorem options_only_gate_fee :
    feeReporter.library.HasHeight feeQuery 1 ∧
      (feeReporter.withOptions ⟨1, true⟩).report feeQuery = .ok feeReport ∧
      (feeReporter.withOptions ⟨0, true⟩).report feeQuery = .error (.depthExceeded 0) ∧
      (feeReporter.withOptions ⟨16, false⟩).report feeQuery = .error (.refused .unbounded) := by
  have hreport : feeReporter.report feeQuery = .ok feeReport := by
    rw [← reportWith_checked]
    exact reportWith_fee rfl rfl rfl
  obtain ⟨_, ⟨height, hheight, hdepth⟩, hrefuse⟩ :=
    options_only_gate feeReporter feeQuery feeReport hreport
  have hone : feeReporter.library.HasHeight feeQuery 1 := .reference rfl (.grouped _ _ _)
  obtain rfl : 1 = height := (hheight 1).1 hone
  have hunbounded : feeReporter.library.RunsUnbounded feeQuery :=
    ⟨_, .entry rfl (.grouped _ _ _), rfl⟩
  exact ⟨hone, hdepth 1, hdepth 0, (hrefuse rfl).2 hunbounded⟩

end Reporter

end Bookkeeping
