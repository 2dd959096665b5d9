import Bookkeeping.Proofs.Decimal.FundText
import Bookkeeping.Proofs.Report.Evaluation
import Bookkeeping.Proofs.Subtotal.Finishing

set_option autoImplicit false

/-! # A report is the flattened expansion of its query

What a report should come to, said without its arithmetic. A named query unfolds into the grouped
queries that it reaches, `Unfolds`, each with a path and the product of the coefficients on the
way. Every grouped query has the lines of its subtotal, `Part.lines`: one for each leaf or
reading, siblings in ascending order. Values, coefficients and products are rational numbers here,
and a line shows their texts.

Where no sum and no product is rounded, the report has exactly these lines one below the other,
and its total is the sum of their products. -/

namespace Bookkeeping

open Subtotal (Key Level Tree)

namespace Report

open Presentation (accountName? titleBelow)

/-! ## Lines -/

/-- A line: where it stands, what stands there, and how it is weighed. -/
structure Line where
  path : String
  value : ℚ
  coefficient : ℚ

/-- What a line adds to the total. -/
def Line.weighted (l : Line) : ℚ := l.value * l.coefficient

/-- A line as it is written. -/
def Line.text (l : Line) : String :=
  l.path ++ "\t" ++ Decimal.fundTextOf l.value ++ "\t" ++ Decimal.fundTextOf l.coefficient ++ "\t"
    ++ Decimal.fundTextOf l.weighted

/-- The place of a group right below another one. -/
def Place.below (names : AccountNames) (place : Place) (level : Level) (key : Key) : Place where
  path := joinPath place.path
    ((accountName? names place.title key).getD (key.label (level.granularity?.getD .day)))
  title := titleBelow place.title key

/-- The values below a group and their paths: those of the leaves, or of the readings. -/
def values (names : AccountNames) (interval : Option Granularity) :
    List Level → Place → Tree → List (String × ℚ)
  | [], place, t =>
      match interval with
      | none => [(place.path, t.fund.toRat)]
      | some g => t.readings.map fun r => (joinPath place.path (g.label r.date), r.fund.toRat)
  | level :: rest, place, t =>
      t.inKeyOrder.flatMap fun child =>
        values names interval rest (place.below names level child.key) child

/-- The report has these lines one below the other, and their products come to its total. -/
def Lists (report : Report) (lines : List Line) : Prop :=
  report.text = "\n".intercalate (lines.map Line.text) ∧
    report.total.toRat = (lines.map Line.weighted).sum

/-! ## Blocks of lines -/

theorem Line.text_ne_empty (l : Line) : l.text ≠ "" := by
  intro h
  have := congrArg String.toList h
  simp [Line.text] at this

theorem intercalate_eq_empty {lines : List String} (hne : ∀ l ∈ lines, l ≠ "") :
    "\n".intercalate lines = "" ↔ lines = [] := by
  cases lines with
  | nil => simp
  | cons first rest =>
      have hfirst := hne first List.mem_cons_self
      cases rest with
      | nil => simpa using hfirst
      | cons second rest =>
          rw [String.intercalate_cons_cons]
          simp [String.append_eq_empty_iff]

/-- A block in front of others puts its lines in front of theirs. -/
theorem joinBlocks_cons {lines more : List Line} {blocks : List String}
    (h : joinBlocks blocks = "\n".intercalate (more.map Line.text)) :
    joinBlocks ("\n".intercalate (lines.map Line.text) :: blocks) =
      "\n".intercalate ((lines ++ more).map Line.text) := by
  have hempty (ls : List Line) : "\n".intercalate (ls.map Line.text) = "" ↔ ls = [] := by
    rw [intercalate_eq_empty, List.map_eq_nil_iff]
    intro text htext
    obtain ⟨l, _, rfl⟩ := List.mem_map.1 htext
    exact l.text_ne_empty
  have hblocks : blocks.filter (· ≠ "") = [] ↔ more = [] := by
    rw [← hempty more, ← h, joinBlocks, intercalate_eq_empty]
    intro block hblock
    simpa using (List.mem_filter.1 hblock).2
  -- a block without lines is passed over; no newline may stand for it
  by_cases hlines : lines = []
  · rw [hlines]
    simpa [joinBlocks] using h
  · have hne : "\n".intercalate (lines.map Line.text) ≠ "" :=
      fun heq => hlines ((hempty lines).1 heq)
    rw [joinBlocks, List.filter_cons_of_pos (by simpa using hne), List.map_append]
    by_cases hmore : more = []
    · rw [hblocks.2 hmore, hmore]
      simp
    · have hrest : blocks.filter (· ≠ "") ≠ [] := fun heq => hmore (hblocks.1 heq)
      have htexts : more.map Line.text ≠ [] := by simpa using hmore
      rw [String.intercalate_cons_of_ne_nil hrest,
        String.intercalate_append_of_ne_nil (by simpa using hlines) htexts, ← h]
      rfl

/-! ## The lines of a subtotal -/

theorem lists_line {coefficient value : Decimal} {path : String} {report : Report}
    (h : lineWith .exact coefficient path value = .ok report) :
    report.Lists [⟨path, value.toRat, coefficient.toRat⟩] := by
  obtain ⟨weighted, hweighted, hreport⟩ := bind_eq_ok.1 h
  cases hreport
  have hproduct := Arithmetic.toRat_of_exact_mul hweighted
  refine ⟨?_, ?_⟩
  · simp only [List.map_cons, List.map_nil, String.intercalate_singleton, Line.text,
      Line.weighted, Decimal.fundText_eq, hproduct]
  · rw [hproduct, List.map_singleton, List.sum_singleton, Line.weighted]

/-- Reports that are joined have their lines one after another. -/
theorem lists_join {α : Type} {f : α → Except Failure Report} {lines : α → List Line} {l : List α}
    (hf : ∀ a ∈ l, ∀ report, f a = .ok report → report.Lists (lines a)) {report : Report}
    (h : (do joinWith .exact (← l.mapM f)) = .ok report) : report.Lists (l.flatMap lines) := by
  obtain ⟨reports, hreports, hjoin⟩ := bind_eq_ok.1 h
  obtain ⟨total, htotal, hreport⟩ := bind_eq_ok.1 hjoin
  cases hreport
  -- texts and totals of the reports, one by one
  suffices hlists : joinBlocks (reports.map (·.text)) =
        "\n".intercalate ((l.flatMap lines).map Line.text) ∧
      ((reports.map (·.total)).map (·.toRat)).sum = ((l.flatMap lines).map Line.weighted).sum by
    refine ⟨hlists.1, ?_⟩
    rw [← hlists.2]
    exact Arithmetic.toRat_of_exact_sum htotal
  clear h hjoin htotal
  induction l generalizing reports with
  | nil =>
      cases hreports
      exact ⟨rfl, rfl⟩
  | cons a rest ih =>
      rw [List.mapM_cons] at hreports
      obtain ⟨first, hfirst, hmore⟩ := bind_eq_ok.1 hreports
      obtain ⟨others, hothers, hcons⟩ := bind_eq_ok.1 hmore
      cases hcons
      obtain ⟨htext, hsum⟩ := hf a List.mem_cons_self first hfirst
      obtain ⟨htexts, hsums⟩ := ih (fun x hx => hf x (List.mem_cons_of_mem a hx)) others hothers
      refine ⟨?_, ?_⟩
      · rw [List.map_cons, htext, List.flatMap_cons]
        exact joinBlocks_cons htexts
      · rw [List.flatMap_cons, List.map_append, List.sum_append, ← hsums, ← hsum]
        rfl

/-- The walk over a tree writes the lines of its values. -/
theorem lists_runFrom {coefficient : Decimal} {names : AccountNames}
    {interval : Option Granularity} {levels : List Level} {place : Place} {v : Subtotal.Visit}
    {report : Report}
    (h : (lineWalkWith .exact coefficient names).runFrom interval levels place v = .ok report) :
    report.Lists ((values names interval levels place v.tree).map fun entry =>
      ⟨entry.1, entry.2, coefficient.toRat⟩) := by
  induction levels generalizing place v report with
  | nil =>
      cases interval with
      | none => exact lists_line h
      | some g =>
          rw [values, List.map_map, List.map_eq_flatMap]
          exact lists_join (fun reading _ _ hline => lists_line hline) h
  | cons level rest ih =>
      rw [Subtotal.Walk.runFrom] at h
      rw [values, List.map_flatMap]
      refine lists_join ?_ h
      intro child _ below hbelow
      obtain ⟨childPlace, hdown, hrest⟩ := bind_eq_ok.1 hbelow
      cases hdown
      obtain ⟨result, hresult, hup⟩ := bind_eq_ok.1 hrest
      cases hup
      exact ih hresult

end Report

/-! ## Unfolding named queries -/

/-- A grouped query that a report reaches: the names on the way there, the product of the
    coefficients, and the subtotal. -/
structure Report.Part where
  path : String
  coefficient : ℚ
  query : GroupedQuery
  tree : Tree

/-- The lines of a part, in order. -/
def Report.Part.lines (names : AccountNames) (part : Report.Part) : List Report.Line :=
  (Report.values names part.query.subtotal.series.interval? part.query.subtotal.effectiveLevels
    ⟨part.path, none⟩ part.tree).map fun entry => ⟨entry.1, entry.2, part.coefficient⟩

namespace Reporter

open Report (Part joinPath)

/-- The subtotal of a grouped query. -/
def treeOf (r : Reporter) (query : GroupedQuery) : Except Failure Tree :=
  Subtotal.ofPostings query.subtotal r.rates (query.query.select r.ledger)

/-- A grouped query that is not refused has the lines of its subtotal. -/
theorem subtotal_eq_ok {r : Reporter} {query : GroupedQuery} {path : String} {weight : Decimal}
    {report : Report} :
    r.subtotal query path weight = .ok report ↔
      (query.query.isUnbounded && !r.options.allowUnbounded) = false ∧
        ∃ tree, r.treeOf query = .ok tree ∧
          Report.ofTree weight r.names query.subtotal path tree = .ok report := by
  unfold subtotal
  cases query.query.isUnbounded && !r.options.allowUnbounded with
  | true =>
      constructor
      · intro h
        cases h
      · rintro ⟨hallowed, _⟩
        cases hallowed
  | false =>
      rw [← bind_eq_ok]
      exact (and_iff_right rfl).symm

theorem subtotal_refused {r : Reporter} {query : GroupedQuery} {path : String} {weight : Decimal}
    (h : (query.query.isUnbounded && !r.options.allowUnbounded) = true) :
    r.subtotal query path weight = .error (.refused .unbounded) := by
  unfold subtotal
  rw [if_pos h]
  rfl

mutual

/-- What a named query holds, at a path and with the product of the coefficients so far, unfolds
    into parts. -/
inductive Unfolds (r : Reporter) : String → ℚ → NamedQuery → List Part → Prop where
  | grouped {path : String} {coefficient : ℚ} {name : String} {k : Decimal} {query : GroupedQuery}
      {tree : Tree} (htree : r.treeOf query = .ok tree) :
      Unfolds r path coefficient (.grouped name k query) [⟨path, coefficient, query, tree⟩]
  | composite {path : String} {coefficient : ℚ} {name : String} {k : Decimal}
      {queries : List NamedQuery} {parts : List Part}
      (hqueries : UnfoldsAll r path coefficient queries parts) :
      Unfolds r path coefficient (.composite name k queries) parts
  /-- An entry brings its coefficient along, but not its name. -/
  | reference {path : String} {coefficient : ℚ} {name : String} {k : Decimal} {target : String}
      {entry : NamedQuery} {parts : List Part} (hget : r.library.get? target = some entry)
      (hentry : Unfolds r path (coefficient * entry.coefficient.toRat) entry parts) :
      Unfolds r path coefficient (.reference name k target) parts

/-- Named queries below a path unfold one after another, each under its name and weighed by its
    coefficient. -/
inductive UnfoldsAll (r : Reporter) : String → ℚ → List NamedQuery → List Part → Prop where
  | nil {path : String} {coefficient : ℚ} : UnfoldsAll r path coefficient [] []
  | cons {path : String} {coefficient : ℚ} {query : NamedQuery} {rest : List NamedQuery}
      {parts more : List Part}
      (hquery : Unfolds r (joinPath path query.name) (coefficient * query.coefficient.toRat) query
        parts)
      (hrest : UnfoldsAll r path coefficient rest more) :
      UnfoldsAll r path coefficient (query :: rest) (parts ++ more)

end

/-- A named query unfolds in one way only. -/
theorem Unfolds.unique {r : Reporter} {path : String} {coefficient : ℚ} {q : NamedQuery}
    {parts others : List Part} (h : r.Unfolds path coefficient q parts)
    (h' : r.Unfolds path coefficient q others) : parts = others := by
  -- the induction is on how `parts` came about, for queries and lists of them at once
  refine @Unfolds.rec r
    (fun path coefficient q parts _ =>
      ∀ others, r.Unfolds path coefficient q others → parts = others)
    (fun path coefficient queries parts _ =>
      ∀ others, r.UnfoldsAll path coefficient queries others → parts = others)
    ?grouped ?composite ?reference ?nil ?cons path coefficient q parts h others h'
  case grouped =>
    intro path coefficient name k query tree htree others h'
    cases h' with
    | grouped htree' =>
        rw [htree] at htree'
        cases htree'
        rfl
  case composite =>
    intro path coefficient name k queries parts _ ih others h'
    cases h' with
    | composite hqueries => exact ih others hqueries
  case reference =>
    intro path coefficient name k target entry parts hget _ ih others h'
    cases h' with
    | reference hget' hentry =>
        rw [hget] at hget'
        cases hget'
        exact ih others hentry
  case nil =>
    intro path coefficient others h'
    cases h'
    rfl
  case cons =>
    intro path coefficient query rest parts more _ _ ihquery ihrest others h'
    cases h' with
    | cons hquery hrest => rw [ihquery _ hquery, ihrest _ hrest]

/-! ## The report -/

variable {r : Reporter}

/-- A part whose subtotal has gone through exact sums. -/
def IsExactPart (r : Reporter) (part : Part) : Prop :=
  r.treeOf part.query = .ok part.tree ∧
    part.tree.Balanced part.query.subtotal.effectiveLevels.length

theorem lists_subtotalWith {query : GroupedQuery} {path : String} {coefficient : Decimal}
    {report : Report} (h : r.subtotalWith .exact query path coefficient = .ok report) :
    ∃ tree, r.IsExactPart ⟨path, coefficient.toRat, query, tree⟩ ∧
      report.Lists (Part.lines r.names ⟨path, coefficient.toRat, query, tree⟩) := by
  unfold subtotalWith at h
  split at h
  · cases h
  · obtain ⟨tree, htree, hlines⟩ := bind_eq_ok.1 h
    exact ⟨tree, ⟨Subtotal.confirms_ofPostingsWith _ _ _ tree htree,
      Subtotal.balanced_ofPostingsWith htree⟩, Report.lists_runFrom hlines⟩

/-- The parts that a step of the expansion reaches, and that its report lists them. -/
theorem unfolds_expandWith (r : Reporter) :
    (∀ (path : String) (coefficient : Decimal) (depth : Nat) (visiting : List String)
      (q : NamedQuery) (report : Report),
      r.expandWith .exact path coefficient depth visiting q = .ok report →
        ∃ parts, r.Unfolds path coefficient.toRat q parts ∧ (∀ part ∈ parts, r.IsExactPart part) ∧
          report.Lists (parts.flatMap (Part.lines r.names))) ∧
    (∀ (path : String) (coefficient : Decimal) (depth : Nat) (visiting : List String)
      (total : Decimal) (queries : List NamedQuery) (sum : Decimal) (blocks : List String),
      r.partsWith .exact path coefficient depth visiting total queries = .ok (sum, blocks) →
        ∃ parts, r.UnfoldsAll path coefficient.toRat queries parts ∧
          (∀ part ∈ parts, r.IsExactPart part) ∧
          Report.joinBlocks blocks = "\n".intercalate
            ((parts.flatMap (Part.lines r.names)).map Report.Line.text) ∧
          sum.toRat = total.toRat +
            ((parts.flatMap (Part.lines r.names)).map Report.Line.weighted).sum) := by
  apply expandWith.mutual_induct r
  case case1 =>
    intro path coefficient depth visiting q hdepth report h
    rw [expandWith_deep hdepth] at h
    cases h
  case case2 =>
    intro path coefficient depth visiting hdepth name k query report h
    rw [expandWith_grouped hdepth] at h
    obtain ⟨tree, hpart, hlists⟩ := lists_subtotalWith h
    refine ⟨_, .grouped hpart.1, ?_, ?_⟩
    · intro part hmem
      rw [List.mem_singleton.1 hmem]
      exact hpart
    · rw [List.flatMap_singleton]
      exact hlists
  case case3 =>
    intro path coefficient depth visiting hdepth name k queries ih report h
    rw [expandWith_composite hdepth] at h
    obtain ⟨⟨sum, blocks⟩, hparts, hreport⟩ := bind_eq_ok.1 h
    cases hreport
    obtain ⟨parts, hunfolds, hexact, htext, htotal⟩ := ih sum blocks hparts
    rw [Decimal.toRat_zero, zero_add] at htotal
    exact ⟨parts, .composite hunfolds, hexact, htext, htotal⟩
  case case4 =>
    intro path coefficient depth visiting hdepth name k target hget report h
    rw [expandWith_unknown hdepth hget] at h
    cases h
  case case5 =>
    intro path coefficient depth visiting hdepth name k target entry hget hin report h
    rw [expandWith_cyclic hdepth hget (by simpa using hin)] at h
    cases h
  case case6 =>
    intro path coefficient depth visiting hdepth name k target entry hget hnot ih report h
    rw [expandWith_reference hdepth hget (by simpa using hnot)] at h
    obtain ⟨weight, hweight, hentry⟩ := bind_eq_ok.1 h
    obtain ⟨parts, hunfolds, hexact, hlists⟩ := ih weight report hentry
    rw [Arithmetic.toRat_of_exact_mul hweight] at hunfolds
    exact ⟨parts, .reference hget hunfolds, hexact, hlists⟩
  case case7 =>
    intro path coefficient depth visiting total sum blocks h
    rw [partsWith_nil] at h
    cases h
    refine ⟨[], .nil, ?_, rfl, by simp⟩
    intro part hmem
    cases hmem
  case case8 =>
    intro path coefficient depth visiting total query rest ihquery ihrest sum blocks h
    rw [partsWith_cons] at h
    obtain ⟨weight, hweight, h⟩ := bind_eq_ok.1 h
    obtain ⟨report, hreport, h⟩ := bind_eq_ok.1 h
    obtain ⟨next, hnext, h⟩ := bind_eq_ok.1 h
    obtain ⟨⟨total', others⟩, hothers, h⟩ := bind_eq_ok.1 h
    cases h
    obtain ⟨parts, hunfolds, hexact, htext, htotal⟩ := ihquery weight report hreport
    obtain ⟨more, hmore, hexacts, htexts, htotals⟩ := ihrest next sum others hothers
    rw [Arithmetic.toRat_of_exact_mul hweight] at hunfolds
    refine ⟨parts ++ more, .cons hunfolds hmore, ?_, ?_, ?_⟩
    · intro part hmem
      rcases List.mem_append.1 hmem with hfirst | hlater
      · exact hexact part hfirst
      · exact hexacts part hlater
    · rw [htext, List.flatMap_append]
      exact Report.joinBlocks_cons htexts
    · rw [htotals, Arithmetic.toRat_of_exact_add hnext, htotal, List.flatMap_append,
        List.map_append, List.sum_append, add_assoc]

theorem sum_flatMap {α : Type} (f : α → List ℚ) (l : List α) :
    (l.flatMap f).sum = (l.map fun a => (f a).sum).sum := by
  rw [List.flatMap_def, List.sum_flatten, List.map_map]
  rfl

/-- The leaves of a balanced group are together worth what the group is worth. -/
theorem sum_values {names : AccountNames} {levels : List Level} {place : Report.Place} {t : Tree}
    (h : t.Balanced levels.length) :
    ((Report.values names none levels place t).map (·.2)).sum = t.fund.toRat := by
  induction levels generalizing place t with
  | nil => simp [Report.values]
  | cons level rest ih =>
      obtain ⟨hfund, hchildren⟩ := h
      rw [hfund, ← (t.inKeyOrder_perm.map fun child => child.fund.toRat).sum_eq, Report.values,
        List.map_flatMap, sum_flatMap]
      refine congrArg List.sum (List.map_congr_left fun child hchild => ?_)
      exact ih (hchildren child (t.inKeyOrder_perm.mem_iff.1 hchild))

theorem sum_lines {part : Part} (h : r.IsExactPart part)
    (hseries : part.query.subtotal.series = .none) :
    ((part.lines r.names).map Report.Line.weighted).sum =
      part.coefficient * part.tree.fund.toRat := by
  have hsum : ((Report.values r.names none part.query.subtotal.effectiveLevels
      ⟨part.path, none⟩ part.tree).map (·.2)).sum = part.tree.fund.toRat := sum_values h.2
  rw [Part.lines, hseries, List.map_map, ← hsum, ← List.sum_map_mul_left]
  refine congrArg List.sum (List.map_congr_left fun entry _ => ?_)
  exact mul_comm _ _

/-- A report whose sums and products are all exact lists the parts that its query unfolds into,
    one below the other. The siblings of every subtotal stand in strictly ascending order, the
    text is made of the lines of the parts and nothing else, and the total is the sum of their
    products; without running balances it is also the weighted sum of the subtotals. -/
theorem report_flattens (r : Reporter) (q : NamedQuery) (report : Report)
    (hreport : r.report q = .ok report) (hexact : r.reportWith .exact q = r.report q) :
    ∃ parts, r.Unfolds (joinPath "" q.name) q.coefficient.toRat q parts ∧
      (∀ part ∈ parts,
        part.tree.AscendingSiblings part.query.subtotal.effectiveLevels.length) ∧
      report.text = "\n".intercalate
        ((parts.flatMap (Part.lines r.names)).map Report.Line.text) ∧
      report.total.toRat = ((parts.flatMap (Part.lines r.names)).map fun line =>
        line.value * line.coefficient).sum ∧
      ((∀ part ∈ parts, part.query.subtotal.series = .none) →
        report.total.toRat =
          (parts.map fun part => part.coefficient * part.tree.fund.toRat).sum) := by
  rw [hreport] at hexact
  obtain ⟨weight, hweight, hbody⟩ := bind_eq_ok.1 hexact
  obtain ⟨parts, hunfolds, hparts, htext, htotal⟩ :=
    (unfolds_expandWith r).1 _ _ _ _ _ report hbody
  rw [Arithmetic.toRat_of_exact_mul hweight, Decimal.toRat_one, one_mul] at hunfolds
  refine ⟨parts, hunfolds, ?_, htext, htotal, ?_⟩
  · intro part hmem
    exact (Subtotal.distinctSiblings_ofPostings (hparts part hmem).1).ascending
  · intro hseries
    rw [htotal, List.map_flatMap, sum_flatMap]
    refine congrArg List.sum (List.map_congr_left fun part hmem => ?_)
    exact sum_lines (hparts part hmem) (hseries part hmem)

/-- An amount without a sign. -/
def unsigned (n s : Nat) : Decimal := (Decimal.ofSigned? false n s).getD .zero

/-- A ledger with one fee, and a library entry that adds it up and weighs it by three. -/
def feeReporter : Reporter where
  ledger := [{ Voucher.undated with details := [.ofTitle 6603 (unsigned 250 2)] }]
  rates := fun _ _ _ => none
  library := .ofList [.grouped "fees" (unsigned 3 0) ⟨.everything, .ofLevels []⟩]
  names := fun _ => none
  options := .standard

/-- A reference to that entry, weighed by two. -/
def feeQuery : NamedQuery := .reference "bank" (unsigned 2 0) "fees"

/-- The report of the fee, weighed by six in all. -/
def feeReport : Report where
  total := unsigned 1500 2
  text := "bank" ++ "\t" ++ (unsigned 250 2).fundText ++ "\t" ++ (unsigned 6 0).fundText ++ "\t"
    ++ (unsigned 1500 2).fundText

theorem reportWith_fee {ar : Arithmetic} (htwo : ar.mul .one (unsigned 2 0) = .ok (unsigned 2 0))
    (hsix : ar.mul (unsigned 2 0) (unsigned 3 0) = .ok (unsigned 6 0))
    (hline : feeReporter.subtotalWith ar ⟨.everything, .ofLevels []⟩ "bank" (unsigned 6 0) =
      .ok feeReport) : feeReporter.reportWith ar feeQuery = .ok feeReport := by
  refine bind_eq_ok.2 ⟨unsigned 2 0, htwo, ?_⟩
  rw [feeQuery, expandWith_reference (by decide) rfl List.not_mem_nil]
  refine bind_eq_ok.2 ⟨unsigned 6 0, hsix, ?_⟩
  rw [expandWith_grouped (by decide)]
  exact hline

theorem report_flattens_fee :
    ∃ parts, feeReporter.Unfolds (joinPath "" feeQuery.name) feeQuery.coefficient.toRat feeQuery
        parts ∧
      (∀ part ∈ parts,
        part.tree.AscendingSiblings part.query.subtotal.effectiveLevels.length) ∧
      feeReport.text = "\n".intercalate
        ((parts.flatMap (Part.lines feeReporter.names)).map Report.Line.text) ∧
      feeReport.total.toRat = ((parts.flatMap (Part.lines feeReporter.names)).map fun line =>
        line.value * line.coefficient).sum ∧
      ((∀ part ∈ parts, part.query.subtotal.series = .none) →
        feeReport.total.toRat =
          (parts.map fun part => part.coefficient * part.tree.fund.toRat).sum) := by
  have hreport : feeReporter.report feeQuery = .ok feeReport := by
    rw [← reportWith_checked]
    exact reportWith_fee rfl rfl rfl
  refine report_flattens feeReporter feeQuery feeReport hreport ?_
  rw [hreport]
  refine reportWith_fee ?_ ?_ ?_
  · with_unfolding_all rfl
  · with_unfolding_all rfl
  · with_unfolding_all rfl

end Reporter

end Bookkeeping
