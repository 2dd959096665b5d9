import Bookkeeping.Proofs.Report.Evaluation
import Bookkeeping.Proofs.Subtotal.Failures

set_option autoImplicit false

/-! # The guards of the expansion

A named query refers to the names in it, and through the entries of a library to the names in
those. `Library.Reaches` is that relation, whatever cycles the library has. The expansion is
guarded against cycles by the names it has set aside, and the guard is exact: where it succeeds,
every name reached has an entry that does not reach itself; it reports a cycle only for an entry
that does, and an unknown name only for one that is reached and has no entry. -/

namespace Bookkeeping

/-! ## References -/

/-- The names that occur in a query, in its parts and in theirs. -/
inductive NamedQuery.Names : NamedQuery → String → Prop where
  | reference (name : String) (k : Decimal) (target : String) :
      Names (.reference name k target) target
  | part {name : String} {k : Decimal} {parts : List NamedQuery} {part : NamedQuery}
      {target : String} (hmem : part ∈ parts) (hpart : Names part target) :
      Names (.composite name k parts) target

/-- The names that a query refers to, itself or through entries of a library. -/
inductive Library.Reaches (library : Library) : NamedQuery → String → Prop where
  | here {q : NamedQuery} {target : String} (h : q.Names target) : Reaches library q target
  | through {q entry : NamedQuery} {name target : String} (h : q.Names name)
      (hget : library.get? name = some entry) (hentry : Reaches library entry target) :
      Reaches library q target

/-- The entry of a name refers back to that name. -/
def Library.IsCyclic (library : Library) (name : String) : Prop :=
  ∃ entry, library.get? name = some entry ∧ library.Reaches entry name

theorem Library.Reaches.part {library : Library} {name : String} {k : Decimal}
    {parts : List NamedQuery} {part : NamedQuery} {target : String} (hmem : part ∈ parts)
    (h : library.Reaches part target) : library.Reaches (.composite name k parts) target := by
  cases h with
  | here h => exact .here (.part hmem h)
  | through h hget hentry => exact .through (.part hmem h) hget hentry

/-- One step of the expansion that leads to another, as the names being expanded and the query:
    from a composite to a part, and from a reference to its entry if that is not being expanded
    yet. Depth plays no role. -/
inductive Library.Leads (library : Library) :
    List String × NamedQuery → List String × NamedQuery → Prop where
  | part {visiting : List String} {name : String} {k : Decimal} {parts : List NamedQuery}
      {part : NamedQuery} (hmem : part ∈ parts) :
      Leads library (visiting, part) (visiting, .composite name k parts)
  | entry {visiting : List String} {name target : String} {k : Decimal} {entry : NamedQuery}
      (hget : library.get? target = some entry) (hnot : target ∉ visiting) :
      Leads library (target :: visiting, entry) (visiting, .reference name k target)

/-- No chain of steps goes on forever: fewer entries are left, or the query is smaller. -/
theorem Library.wellFounded_leads (library : Library) : WellFounded library.Leads := by
  have hlex := (Prod.lex Nat.lt_wfRel Nat.lt_wfRel).wf
  refine Subrelation.wf (r := InvImage _ fun s : List String × NamedQuery =>
    (library.countOutside s.1, sizeOf s.2)) ?_ (InvImage.wf _ hlex)
  intro next now h
  cases h with
  | part hmem =>
      apply Prod.Lex.right
      have hlt := List.sizeOf_lt_of_mem hmem
      simp only [NamedQuery.composite.sizeOf_spec]
      show _ < _
      omega
  | entry hget hnot =>
      apply Prod.Lex.left
      exact countOutside_cons_lt hget (by simpa using hnot)

namespace Reporter

variable {r : Reporter}

/-! ## Successful expansions -/

/-- The query expands, below some path and at some depth, while the given names are being
    expanded. -/
def Expands (r : Reporter) (visiting : List String) (q : NamedQuery) : Prop :=
  ∃ path coefficient depth report,
    r.expandWith .checked path coefficient depth visiting q = .ok report

theorem expands_of_partsWith {path : String} {coefficient total : Decimal} {depth : Nat}
    {visiting : List String} {parts : List NamedQuery} {result : Decimal × List String}
    (h : r.partsWith .checked path coefficient depth visiting total parts = .ok result)
    {part : NamedQuery} (hmem : part ∈ parts) : r.Expands visiting part := by
  induction parts generalizing total result with
  | nil => simp at hmem
  | cons first rest ih =>
      rw [partsWith_cons] at h
      obtain ⟨weight, _, h⟩ := bind_eq_ok.1 h
      obtain ⟨report, hreport, h⟩ := bind_eq_ok.1 h
      obtain ⟨total, _, h⟩ := bind_eq_ok.1 h
      obtain ⟨below, hrest, _⟩ := bind_eq_ok.1 h
      rcases List.mem_cons.1 hmem with rfl | hmem
      · exact ⟨_, weight, depth, report, hreport⟩
      · exact ih hrest hmem

theorem Expands.part {visiting : List String} {name : String} {k : Decimal}
    {parts : List NamedQuery} (h : r.Expands visiting (.composite name k parts))
    {part : NamedQuery} (hmem : part ∈ parts) : r.Expands visiting part := by
  obtain ⟨path, coefficient, depth, report, h⟩ := h
  by_cases hdepth : r.options.maxDepth.toNat < depth
  · rw [expandWith_deep hdepth] at h
    cases h
  · rw [expandWith_composite hdepth] at h
    obtain ⟨result, hparts, _⟩ := bind_eq_ok.1 h
    exact expands_of_partsWith hparts hmem

theorem Expands.entry {visiting : List String} {name target : String} {k : Decimal}
    (h : r.Expands visiting (.reference name k target)) :
    target ∉ visiting ∧
      ∃ entry, r.library.get? target = some entry ∧ r.Expands (target :: visiting) entry := by
  obtain ⟨path, coefficient, depth, report, h⟩ := h
  by_cases hdepth : r.options.maxDepth.toNat < depth
  · rw [expandWith_deep hdepth] at h
    cases h
  cases hget : r.library.get? target with
  | none =>
      rw [expandWith_unknown hdepth hget] at h
      cases h
  | some entry =>
      by_cases hin : target ∈ visiting
      · rw [expandWith_cyclic hdepth hget hin] at h
        cases h
      · rw [expandWith_reference hdepth hget hin] at h
        obtain ⟨weight, _, h⟩ := bind_eq_ok.1 h
        exact ⟨hin, entry, rfl, path, weight, depth + 1, report, h⟩

theorem Expands.names {visiting : List String} {q : NamedQuery} {target : String}
    (h : r.Expands visiting q) (hnames : q.Names target) :
    target ∉ visiting ∧
      ∃ entry, r.library.get? target = some entry ∧ r.Expands (target :: visiting) entry := by
  induction hnames with
  | reference name k target => exact h.entry
  | part hmem _ ih => exact ih (h.part hmem)

/-- A name reached by an expansion that succeeds is not among those set aside, and it has an
    entry that expands with the name set aside. -/
theorem Expands.reaches {visiting : List String} {q : NamedQuery} {target : String}
    (h : r.Expands visiting q) (hreaches : r.library.Reaches q target) :
    target ∉ visiting ∧ ∃ entry inner, r.library.get? target = some entry ∧ target ∈ inner ∧
      r.Expands inner entry := by
  induction hreaches generalizing visiting with
  | here hnames =>
      obtain ⟨hnot, entry, hget, hentry⟩ := h.names hnames
      exact ⟨hnot, entry, _ :: visiting, hget, List.mem_cons_self, hentry⟩
  | @through _ found name _ hnames hget _ ih =>
      -- inside the entry more names are set aside, never fewer
      obtain ⟨_, entry, hentry, hexpands⟩ := h.names hnames
      obtain rfl : found = entry := Option.some.inj (hget.symm.trans hentry)
      obtain ⟨hnot, below⟩ := ih hexpands
      exact ⟨fun hin => hnot (List.mem_cons_of_mem name hin), below⟩

theorem expands_of_report {q : NamedQuery} {report : Report} (h : r.report q = .ok report) :
    r.Expands [] q := by
  rw [← reportWith_checked] at h
  obtain ⟨weight, _, h⟩ := bind_eq_ok.1 h
  exact ⟨_, weight, 0, report, h⟩

theorem get?_ne_none_of_report {q : NamedQuery} {report : Report} (h : r.report q = .ok report)
    {target : String} (hreaches : r.library.Reaches q target) :
    r.library.get? target ≠ none := by
  obtain ⟨_, entry, _, hget, _⟩ := (expands_of_report h).reaches hreaches
  simp [hget]

theorem not_isCyclic_of_report {q : NamedQuery} {report : Report} (h : r.report q = .ok report)
    {target : String} (hreaches : r.library.Reaches q target) : ¬ r.library.IsCyclic target := by
  rintro ⟨found, hfound, hback⟩
  obtain ⟨_, entry, inner, hget, hin, hexpands⟩ := (expands_of_report h).reaches hreaches
  obtain rfl : entry = found := Option.some.inj (hget.symm.trans hfound)
  exact (hexpands.reaches hback).1 hin

/-! ## Failed expansions -/

/-- A failure has its reason in the query: a cycle is one of the names set aside, or that of an
    entry that refers back to itself, and an unknown name has no entry; both are reached. -/
def HasReason (library : Library) (visiting : List String) (q : NamedQuery) : Failure → Prop
  | .cyclicReference target =>
      library.Reaches q target ∧ (target ∈ visiting ∨ library.IsCyclic target)
  | .unknownNamedQuery target => library.Reaches q target ∧ library.get? target = none
  | _ => True

theorem HasReason.part {library : Library} {visiting : List String} {name : String} {k : Decimal}
    {parts : List NamedQuery} {part : NamedQuery} {e : Failure} (hmem : part ∈ parts)
    (h : HasReason library visiting part e) :
    HasReason library visiting (.composite name k parts) e := by
  cases e with
  | cyclicReference target => exact ⟨h.1.part hmem, h.2⟩
  | unknownNamedQuery target => exact ⟨h.1.part hmem, h.2⟩
  | _ => trivial

theorem HasReason.entry {library : Library} {visiting : List String} {name target : String}
    {k : Decimal} {entry : NamedQuery} {e : Failure} (hget : library.get? target = some entry)
    (h : HasReason library (target :: visiting) entry e) :
    HasReason library visiting (.reference name k target) e := by
  have hnames : NamedQuery.Names (.reference name k target) target := .reference name k target
  cases e with
  | cyclicReference found =>
      obtain ⟨hreaches, hwhy⟩ := h
      refine ⟨.through hnames hget hreaches, ?_⟩
      rcases hwhy with hin | hcyclic
      · rcases List.mem_cons.1 hin with rfl | hin
        -- the name set aside last is met again: its entry refers back to it
        · exact Or.inr ⟨entry, hget, hreaches⟩
        · exact Or.inl hin
      · exact Or.inr hcyclic
  | unknownNamedQuery found => exact ⟨.through hnames hget h.1, h.2⟩
  | _ => trivial

theorem HasReason.of_eq_overflow {library : Library} {visiting : List String} {q : NamedQuery}
    (e : Failure) (h : e = .overflow) : HasReason library visiting q e :=
  h ▸ trivial

theorem onlyFails_line (coefficient : Decimal) (path : String) (value : Decimal) :
    OnlyFails (· = .overflow) (Report.line coefficient path value) :=
  (Decimal.onlyFails_checkedMul value coefficient).bind fun _ => .ok _

theorem onlyFails_subtotal (r : Reporter) (query : GroupedQuery) (path : String)
    (coefficient : Decimal) (visiting : List String) (q : NamedQuery) :
    OnlyFails (HasReason r.library visiting q) (r.subtotal query path coefficient) := by
  have hlines : ∀ tree, OnlyFails (HasReason r.library visiting q)
      (Report.ofTree coefficient r.names query.subtotal path tree) := by
    intro tree
    refine OnlyFails.imp (P := (· = .overflow)) ?_ HasReason.of_eq_overflow
    refine Subtotal.Walk.onlyFails_runFrom _ ?_ ?_ ?_ ?_ ?_ _ _ _ _
    · exact fun place v => onlyFails_line _ _ _
    · exact fun place v reading g => onlyFails_line _ _ _
    · exact fun place v => .ok _
    · exact fun place child v report => .ok _
    · exact fun place v reports => (Decimal.onlyFails_checkedSumFrom _ _).bind fun total => .ok _
  have htree : OnlyFails (HasReason r.library visiting q)
      (Subtotal.ofPostings query.subtotal r.rates (query.query.select r.ledger)) := by
    refine (Subtotal.onlyFails_ofPostings _ _ _).imp fun e he => ?_
    cases he <;> trivial
  unfold subtotal
  exact .ite (.error trivial) (htree.bind hlines)

/-- Every failure of an expansion has its reason in the query, and that of parts in one of
    them. -/
theorem onlyFails_expandWith (r : Reporter) :
    (∀ (path : String) (coefficient : Decimal) (depth : Nat) (visiting : List String)
      (q : NamedQuery), OnlyFails (HasReason r.library visiting q)
        (r.expandWith .checked path coefficient depth visiting q)) ∧
    (∀ (path : String) (coefficient : Decimal) (depth : Nat) (visiting : List String)
      (total : Decimal) (parts : List NamedQuery),
      OnlyFails (fun e => e = .overflow ∨ ∃ part ∈ parts, HasReason r.library visiting part e)
        (r.partsWith .checked path coefficient depth visiting total parts)) := by
  apply expandWith.mutual_induct r
  case case1 =>
    intro path coefficient depth visiting q hdepth
    rw [expandWith_deep hdepth]
    exact .error trivial
  case case2 =>
    intro path coefficient depth visiting hdepth name k query
    rw [expandWith_grouped hdepth, subtotalWith_checked]
    exact onlyFails_subtotal r query path coefficient visiting _
  case case3 =>
    intro path coefficient depth visiting hdepth name k parts ih
    rw [expandWith_composite hdepth]
    refine (ih.imp ?_).bind fun result => .ok _
    rintro e (rfl | ⟨part, hmem, hreason⟩)
    · trivial
    · exact hreason.part hmem
  case case4 =>
    intro path coefficient depth visiting hdepth name k target hget
    rw [expandWith_unknown hdepth hget]
    exact .error ⟨.here (.reference name k target), hget⟩
  case case5 =>
    intro path coefficient depth visiting hdepth name k target entry hget hin
    have hmem : target ∈ visiting := by simpa using hin
    rw [expandWith_cyclic hdepth hget hmem]
    exact .error ⟨.here (.reference name k target), Or.inl hmem⟩
  case case6 =>
    intro path coefficient depth visiting hdepth name k target entry hget hnot ih
    rw [expandWith_reference hdepth hget (by simpa using hnot)]
    refine .bind ?_ fun weight => (ih weight).imp fun e => HasReason.entry hget
    exact (Decimal.onlyFails_checkedMul _ _).imp HasReason.of_eq_overflow
  case case7 =>
    intro path coefficient depth visiting total
    rw [partsWith_nil]
    exact .ok _
  case case8 =>
    intro path coefficient depth visiting total part rest ihpart ihrest
    rw [partsWith_cons]
    refine .bind ((Decimal.onlyFails_checkedMul _ _).imp fun e => Or.inl) fun weight => ?_
    refine .bind ((ihpart weight).imp ?_) fun report => ?_
    · exact fun e hreason => Or.inr ⟨part, List.mem_cons_self, hreason⟩
    refine .bind ((Decimal.onlyFails_checkedAdd _ _).imp fun e => Or.inl) fun total => ?_
    refine .bind ((ihrest total).imp ?_) fun result => .ok _
    rintro e (hoverflow | ⟨other, hmem, hreason⟩)
    · exact Or.inl hoverflow
    · exact Or.inr ⟨other, List.mem_cons_of_mem part hmem, hreason⟩

theorem hasReason_of_report {q : NamedQuery} {e : Failure} (h : r.report q = .error e) :
    HasReason r.library [] q e := by
  rw [← reportWith_checked] at h
  rcases bind_eq_error.1 h with hweight | ⟨weight, _, hbody⟩
  · exact HasReason.of_eq_overflow e (Decimal.onlyFails_checkedMul _ _ e hweight)
  · exact (onlyFails_expandWith r).1 _ _ _ _ _ e hbody

theorem isCyclic_of_report {q : NamedQuery} {target : String}
    (h : r.report q = .error (.cyclicReference target)) :
    r.library.Reaches q target ∧ r.library.IsCyclic target := by
  obtain ⟨hreaches, hin | hcyclic⟩ := hasReason_of_report h
  · exact absurd hin List.not_mem_nil
  · exact ⟨hreaches, hcyclic⟩

/-! ## The guards are exact -/

/-- The expansion ends for every library, and its guards are exact. A report is never given when
    a name is reached that has no entry or an entry that refers back to it; the two failures name
    such names only, so entries without cycles are never refused, however many branches refer to
    them; and every step leaves the names being expanded as it found them, also if it fails. -/
theorem expansion_guards (r : Reporter) (q : NamedQuery) :
    WellFounded r.library.Leads ∧
    (∀ target, r.library.Reaches q target →
      r.library.get? target = none ∨ r.library.IsCyclic target →
        ∀ report, r.report q ≠ .ok report) ∧
    (∀ target, r.report q = .error (.cyclicReference target) →
      r.library.Reaches q target ∧ r.library.IsCyclic target) ∧
    (∀ target, r.report q = .error (.unknownNamedQuery target) →
      r.library.Reaches q target ∧ r.library.get? target = none) ∧
    ((∀ target, r.library.Reaches q target → ¬ r.library.IsCyclic target) →
      ∀ target, r.report q ≠ .error (.cyclicReference target)) ∧
    (∀ path coefficient depth visiting body,
      ((r.expandBody path coefficient depth body).run.run visiting).2 = visiting) := by
  refine ⟨r.library.wellFounded_leads, ?_, fun target => isCyclic_of_report,
    fun target h => hasReason_of_report h, ?_, ?_⟩
  · rintro target hreaches (hnone | hcyclic) report h
    · exact get?_ne_none_of_report h hreaches hnone
    · exact not_isCyclic_of_report h hreaches hcyclic
  · intro hacyclic target h
    obtain ⟨hreaches, hcyclic⟩ := isCyclic_of_report h
    exact hacyclic target hreaches hcyclic
  · intro path coefficient depth visiting body
    rw [run_expandBody]

end Reporter

end Bookkeeping
