import Bookkeeping.Proofs.Decimal.ExactProduct
import Bookkeeping.Proofs.Presentation.TextOrder
import Bookkeeping.Proofs.Report.Flattening
import Bookkeeping.Proofs.Subtotal.LedgerOrder

set_option autoImplicit false

/-! # Reports of ledgers in another order

A report over a ledger, and the report over the ledger in another order: where the first one
multiplies without rounding and adds up amounts that can be added up exactly, `Reporter.ComesTo`,
both have the same lines and totals of one value. Subtotals that are alike have the same lines,
since siblings stand in the order of their keys and a line shows values only. The rest of a report
is put together in the order of the named query, which is the same for both. -/

namespace Bookkeeping

namespace Report

open Decimal (MultipliesTo SumsTo)
open Subtotal (Level Tree)

/-! ## Reports that show the same -/

/-- The same lines, and a total of the same value. -/
structure SameAs (report other : Report) : Prop where
  text_eq : other.text = report.text
  total_eq : other.total.toRat = report.total.toRat

/-- Both come out, the first one with this total, and their reports show the same. -/
def SameOutcome (total : Decimal) (x y : Except Failure Report) : Prop :=
  ∃ report other, x = .ok report ∧ y = .ok other ∧ report.total = total ∧ report.SameAs other

theorem sameOutcome_line {coefficient value other weighted : Decimal} (path : String)
    (h : MultipliesTo value coefficient weighted) (heq : value.toRat = other.toRat) :
    SameOutcome weighted (line coefficient path value) (line coefficient path other) := by
  obtain ⟨found, hfound, hvalue⟩ := h.congr heq
  refine ⟨_, _, bind_eq_ok.2 ⟨weighted, h.1, rfl⟩, bind_eq_ok.2 ⟨found, hfound, rfl⟩, rfl, ?_,
    hvalue⟩
  simp only [Decimal.fundText_eq, heq, hvalue]

/-- Texts are the same, and totals of the same values. -/
theorem SameAs.map_eq {reports others : List Report} (h : List.Forall₂ SameAs reports others) :
    others.map (·.text) = reports.map (·.text) ∧
      (reports.map (·.total)).map (·.toRat) = (others.map (·.total)).map (·.toRat) := by
  induction h with
  | nil => exact ⟨rfl, rfl⟩
  | cons hfirst _ ih =>
      simp only [List.map_cons, hfirst.text_eq, hfirst.total_eq, ih.1, ih.2, and_self]

/-- Reports of the same that are joined show the same. -/
theorem sameOutcome_join {reports others : List Report} {total : Decimal}
    (h : List.Forall₂ SameAs reports others) (hsum : SumsTo (reports.map (·.total)) total) :
    SameOutcome total (join reports) (join others) := by
  obtain ⟨htexts, htotals⟩ := SameAs.map_eq h
  obtain ⟨found, hfound, hvalue⟩ := hsum.congr htotals
  exact ⟨_, _, bind_eq_ok.2 ⟨total, hsum.2, rfl⟩, bind_eq_ok.2 ⟨found, hfound, rfl⟩, rfl,
    congrArg joinBlocks htexts, hvalue⟩

/-- Two lists with the same projections, where items of one projection have the same outcome. -/
theorem sameOutcome_joinAll {α κ : Type} {p : α → κ} {f g : α → Except Failure Report}
    {l others : List α} {totals : List Decimal} {total : Decimal}
    (hl : l.map p = others.map p)
    (h : List.Forall₂ (fun a total => ∀ b ∈ others, p a = p b → SameOutcome total (f a) (g b))
      l totals) (hsum : SumsTo totals total) :
    SameOutcome total (do join (← l.mapM f)) (do join (← others.mapM g)) := by
  suffices hall : ∃ reports found, l.mapM f = .ok reports ∧ others.mapM g = .ok found ∧
      reports.map (·.total) = totals ∧ List.Forall₂ SameAs reports found by
    obtain ⟨reports, found, hreports, hfound, rfl, hsame⟩ := hall
    rw [hreports, hfound]
    exact sameOutcome_join hsame hsum
  clear hsum
  induction l generalizing others totals with
  | nil =>
      cases h
      obtain rfl : others = [] := List.map_eq_nil_iff.1 hl.symm
      exact ⟨[], [], rfl, rfl, rfl, .nil⟩
  | cons a rest ih =>
      obtain ⟨total, more, hfirst, hrest, rfl⟩ := List.forall₂_cons_left_iff.1 h
      cases others with
      | nil => cases hl
      | cons b tail =>
          obtain ⟨hab, htail⟩ := List.cons.inj hl
          obtain ⟨report, other, hreport, hother, htotal, hsame⟩ :=
            hfirst b List.mem_cons_self hab
          obtain ⟨reports, found, hreports, hfound, htotals, hsames⟩ :=
            ih htail (hrest.imp fun x _ hx y hy => hx y (List.mem_cons_of_mem b hy))
          refine ⟨report :: reports, other :: found, ?_, ?_, ?_, .cons hsame hsames⟩
          · rw [List.mapM_cons, hreport, hreports]
            rfl
          · rw [List.mapM_cons, hother, hfound]
            rfl
          · rw [List.map_cons, htotal, htotals]

/-! ## The lines of a subtotal -/

/-- No product below a group is rounded, and what is added up on the way to the total can be
    added up exactly. -/
def ComesTo (coefficient : Decimal) (interval : Option Granularity) :
    List Level → Tree → Decimal → Prop
  | [], t, total =>
      match interval with
      | none => MultipliesTo t.fund coefficient total
      | some _ =>
          ∃ products, List.Forall₂ (fun r => MultipliesTo r.fund coefficient) t.readings products ∧
            SumsTo products total
  | _ :: rest, t, total =>
      ∃ totals, List.Forall₂ (ComesTo coefficient interval rest) t.inKeyOrder totals ∧
        SumsTo totals total

/-- The step of the walk at a child. -/
theorem runFrom_child (coefficient : Decimal) (names : AccountNames)
    (interval : Option Granularity) (level : Level) (rest : List Level) (place : Place)
    (depth : Nat) (child : Tree) :
    (do
      let visit : Subtotal.Visit :=
        ⟨child, depth + 1, some level, Subtotal.below rest interval⟩
      let childPlace ← (lineWalk coefficient names).down place visit
      let report ← (lineWalk coefficient names).runFrom interval rest childPlace visit
      (lineWalk coefficient names).up place childPlace visit report) =
        (lineWalk coefficient names).runFrom interval rest (place.below names level child.key)
          ⟨child, depth + 1, some level, Subtotal.below rest interval⟩ :=
  bind_pure ((lineWalk coefficient names).runFrom interval rest
    (place.below names level child.key) _)

/-- Groups that are alike have the same lines. -/
theorem sameOutcome_runFrom {coefficient : Decimal} {interval : Option Granularity}
    {levels : List Level} {t other : Tree} {total : Decimal}
    (hexact : ComesTo coefficient interval levels t total) (h : t.Alike levels.length other)
    (names : AccountNames) (place : Place) (depth : Nat) (level : Option Level)
    (below : Subtotal.Below) :
    SameOutcome total
      ((lineWalk coefficient names).runFrom interval levels place ⟨t, depth, level, below⟩)
      ((lineWalk coefficient names).runFrom interval levels place ⟨other, depth, level, below⟩) := by
  induction levels generalizing t other total place depth level below with
  | nil =>
      cases interval with
      | none => exact sameOutcome_line place.path hexact h.sameValues.fund_eq
      | some g =>
          obtain ⟨products, hproducts, hsum⟩ := hexact
          refine sameOutcome_joinAll h.sameValues.readings_eq (hproducts.imp ?_) hsum
          intro r product hproduct q _ hrq
          obtain ⟨hdate, hvalue⟩ := Prod.mk.inj hrq
          show SameOutcome product (line coefficient (joinPath place.path (g.label r.date)) r.fund)
            (line coefficient (joinPath place.path (g.label q.date)) q.fund)
          rw [← hdate]
          exact sameOutcome_line _ hproduct hvalue
  | cons next rest ih =>
      obtain ⟨totals, htotals, hsum⟩ := hexact
      obtain ⟨_, _, hkeys, hchildren⟩ := h
      have hmem : ∀ a ∈ t.inKeyOrder, a ∈ t.children :=
        fun _ ha => t.inKeyOrder_perm.mem_iff.1 ha
      refine sameOutcome_joinAll (Subtotal.map_key_inOrder compare hkeys)
        (((List.forall₂_and_left _ _).2 ⟨hmem, htotals⟩).imp ?_) hsum
      rintro a subtotal ⟨ha, hbelow⟩ b hb hab
      have hb := (Subtotal.inOrder_perm compare other.children).mem_iff.1 hb
      -- the path and the title of a child come from its key
      rw [runFrom_child, runFrom_child, ← hab]
      exact ih hbelow (hchildren a ha b hb hab) _ _ _ _

end Report

namespace Reporter

open Decimal (SumsTo ExactlySummable)
open Report (SameAs SameOutcome joinPath)
open Subtotal (Tree)

/-! ## Exact reports -/

mutual

/-- What a named query holds comes to a total, with the product of the coefficients so far:
    converted amounts and the totals of parts can be added up exactly, and no product with a value
    is rounded. Coefficients are the same whatever the ledger, so their products may be. -/
inductive ComesTo (r : Reporter) : Decimal → NamedQuery → Decimal → Prop where
  | grouped {weight total k : Decimal} {name : String} {query : GroupedQuery}
      {records : List (Posting × Decimal)} {tree : Tree}
      (hconvert : query.subtotal.convertAll r.rates (query.query.select r.ledger) = .ok records)
      (hsum : ExactlySummable (records.map (·.2))) (htree : r.treeOf query = .ok tree)
      (hlines : Report.ComesTo weight query.subtotal.series.interval?
        query.subtotal.effectiveLevels tree total) :
      ComesTo r weight (.grouped name k query) total
  | composite {weight total k : Decimal} {name : String} {parts : List NamedQuery}
      {totals : List Decimal} (hparts : ComesToAll r weight parts totals)
      (hsum : SumsTo totals total) : ComesTo r weight (.composite name k parts) total
  | reference {weight product total k : Decimal} {name target : String} {entry : NamedQuery}
      (hget : r.library.get? target = some entry)
      (hweight : weight.checkedMul entry.coefficient = .ok product)
      (hentry : ComesTo r product entry total) : ComesTo r weight (.reference name k target) total

/-- Each of the named queries comes to its total. -/
inductive ComesToAll (r : Reporter) : Decimal → List NamedQuery → List Decimal → Prop where
  | nil {weight : Decimal} : ComesToAll r weight [] []
  | cons {weight product total : Decimal} {query : NamedQuery} {rest : List NamedQuery}
      {totals : List Decimal} (hweight : weight.checkedMul query.coefficient = .ok product)
      (hquery : ComesTo r product query total) (hrest : ComesToAll r weight rest totals) :
      ComesToAll r weight (query :: rest) (total :: totals)

end

/-- A part comes out with a report. -/
def PartIs (r : Reporter) (path : String) (weight : Decimal) (depth : Nat)
    (visiting : List String) (part : NamedQuery) (report : Report) : Prop :=
  ∃ product, weight.checkedMul part.coefficient = .ok product ∧
    r.expandWith .checked (joinPath path part.name) product depth visiting part = .ok report

/-- Parts come out if each of them does and their totals can be added to the one so far. -/
theorem partsWith_eq_ok {r : Reporter} {path : String} {weight start sum : Decimal} {depth : Nat}
    {visiting : List String} {parts : List NamedQuery} {blocks : List String} :
    r.partsWith .checked path weight depth visiting start parts = .ok (sum, blocks) ↔
      ∃ reports, List.Forall₂ (r.PartIs path weight depth visiting) parts reports ∧
        Decimal.checkedSumFrom start (reports.map (·.total)) = .ok sum ∧
        blocks = reports.map (·.text) := by
  induction parts generalizing start blocks with
  | nil =>
      rw [partsWith_nil]
      constructor
      · intro h
        cases h
        exact ⟨[], .nil, rfl, rfl⟩
      · rintro ⟨reports, hparts, hsum, rfl⟩
        cases hparts
        cases hsum
        rfl
  | cons part rest ih =>
      rw [partsWith_cons]
      constructor
      · intro h
        obtain ⟨product, hproduct, h⟩ := bind_eq_ok.1 h
        obtain ⟨report, hreport, h⟩ := bind_eq_ok.1 h
        obtain ⟨next, hnext, h⟩ := bind_eq_ok.1 h
        obtain ⟨⟨sum', others⟩, hothers, h⟩ := bind_eq_ok.1 h
        cases h
        obtain ⟨reports, hparts, hsum, rfl⟩ := ih.1 hothers
        refine ⟨report :: reports, .cons ⟨product, hproduct, hreport⟩ hparts, ?_, rfl⟩
        exact bind_eq_ok.2 ⟨next, hnext, hsum⟩
      · rintro ⟨reports, hparts, hsum, rfl⟩
        obtain ⟨report, more, ⟨product, hproduct, hreport⟩, hmore, rfl⟩ :=
          List.forall₂_cons_left_iff.1 hparts
        obtain ⟨next, hnext, hsum⟩ := bind_eq_ok.1 hsum
        refine bind_eq_ok.2 ⟨product, hproduct, bind_eq_ok.2 ⟨report, hreport,
          bind_eq_ok.2 ⟨next, hnext, bind_eq_ok.2 ⟨_, ih.2 ⟨more, hmore, hsum, rfl⟩, rfl⟩⟩⟩⟩

/-! ## Both reports -/

/-- The same reporter with another ledger. -/
def withLedger (r : Reporter) (ledger : Ledger) : Reporter := { r with ledger := ledger }

variable {r : Reporter} {other : Ledger}

/-- A grouped query has the same lines over both ledgers. -/
theorem subtotal_reordered (h : r.ledger.Reorders other) {query : GroupedQuery}
    {weight total : Decimal} {records : List (Posting × Decimal)} {tree : Tree}
    (hconvert : query.subtotal.convertAll r.rates (query.query.select r.ledger) = .ok records)
    (hsum : ExactlySummable (records.map (·.2))) (htree : r.treeOf query = .ok tree)
    (hlines : Report.ComesTo weight query.subtotal.series.interval?
      query.subtotal.effectiveLevels tree total)
    (hallowed : (query.query.isUnbounded && !r.options.allowUnbounded) = false) (path : String) :
    SameOutcome total (r.subtotal query path weight)
      ((r.withLedger other).subtotal query path weight) := by
  obtain ⟨σ, hσ, hrearranges⟩ := Subtotal.select_rearranges h query.query
  obtain ⟨first, second, hfirst, hsecond, halike⟩ := Subtotal.ofPostings_alike hσ hrearranges
    (Subtotal.ofOneVoucherEach_select query.query r.ledger) hconvert hsum
  obtain rfl : tree = first := Except.ok.inj (htree.symm.trans hfirst)
  obtain ⟨report, found, hreport, hfound, hshown⟩ :=
    Report.sameOutcome_runFrom hlines halike r.names ⟨path, none⟩ 0 none
      (Subtotal.below query.subtotal.effectiveLevels query.subtotal.series.interval?)
  exact ⟨report, found, subtotal_eq_ok.2 ⟨hallowed, tree, hfirst, hreport⟩,
    subtotal_eq_ok.2 ⟨hallowed, second, hsecond, hfound⟩, hshown⟩

/-- Where what a named query holds comes out, it does so over the other ledger as well. The
    first one has this total, and both show the same. -/
def ShowsSame (r : Reporter) (other : Ledger) (weight : Decimal) (q : NamedQuery)
    (total : Decimal) : Prop :=
  ∀ path depth visiting report,
    r.expandWith .checked path weight depth visiting q = .ok report →
      ∃ found,
        (r.withLedger other).expandWith .checked path weight depth visiting q = .ok found ∧
          report.total = total ∧ report.SameAs found

/-- The same of the parts of a composite, one by one. -/
def PartsShowSame (r : Reporter) (other : Ledger) (weight : Decimal) (parts : List NamedQuery)
    (totals : List Decimal) : Prop :=
  ∀ path depth visiting reports,
    List.Forall₂ (r.PartIs path weight depth visiting) parts reports →
      ∃ found,
        List.Forall₂ ((r.withLedger other).PartIs path weight depth visiting) parts found ∧
          reports.map (·.total) = totals ∧ List.Forall₂ SameAs reports found

/-- What comes out is not nested too deep. -/
theorem not_deep_of_ok {path : String} {weight : Decimal} {depth : Nat} {visiting : List String}
    {q : NamedQuery} {report : Report}
    (h : r.expandWith .checked path weight depth visiting q = .ok report) :
    ¬ r.options.maxDepth.toNat < depth := by
  intro hdeep
  rw [expandWith_deep hdeep] at h
  cases h

theorem showsSame_grouped (h : r.ledger.Reorders other) {weight total : Decimal}
    {query : GroupedQuery} {records : List (Posting × Decimal)} {tree : Tree}
    (hconvert : query.subtotal.convertAll r.rates (query.query.select r.ledger) = .ok records)
    (hsum : ExactlySummable (records.map (·.2))) (htree : r.treeOf query = .ok tree)
    (hlines : Report.ComesTo weight query.subtotal.series.interval?
      query.subtotal.effectiveLevels tree total) (name : String) (k : Decimal) :
    r.ShowsSame other weight (.grouped name k query) total := by
  intro path depth visiting report hreport
  have hdepth := not_deep_of_ok hreport
  rw [expandWith_grouped hdepth, subtotalWith_checked] at hreport
  obtain ⟨hallowed, _⟩ := subtotal_eq_ok.1 hreport
  obtain ⟨written, found, hwritten, hfound, hshown⟩ :=
    subtotal_reordered h hconvert hsum htree hlines hallowed path
  obtain rfl : report = written := Except.ok.inj (hreport.symm.trans hwritten)
  refine ⟨found, ?_, hshown⟩
  rw [expandWith_grouped (r := r.withLedger other) hdepth, subtotalWith_checked]
  exact hfound

theorem showsSame_composite {weight total : Decimal} {parts : List NamedQuery}
    {totals : List Decimal} (h : r.PartsShowSame other weight parts totals)
    (hsum : SumsTo totals total) (name : String) (k : Decimal) :
    r.ShowsSame other weight (.composite name k parts) total := by
  intro path depth visiting report hreport
  have hdepth := not_deep_of_ok hreport
  rw [expandWith_composite hdepth] at hreport
  obtain ⟨⟨sum, blocks⟩, hparts, hreport⟩ := bind_eq_ok.1 hreport
  cases hreport
  obtain ⟨reports, hreports, hadded, rfl⟩ := partsWith_eq_ok.1 hparts
  obtain ⟨found, hfound, rfl, hsame⟩ := h _ _ _ reports hreports
  obtain ⟨htexts, htotals⟩ := SameAs.map_eq hsame
  obtain ⟨sum', hadded', hvalue⟩ := hsum.congr htotals
  obtain rfl : sum = total := Except.ok.inj (hadded.symm.trans hsum.2)
  rw [expandWith_composite (r := r.withLedger other) hdepth]
  exact ⟨_, bind_eq_ok.2 ⟨_, partsWith_eq_ok.2 ⟨found, hfound, hadded', rfl⟩, rfl⟩, rfl,
    congrArg Report.joinBlocks htexts, hvalue⟩

theorem showsSame_reference {weight product total : Decimal} {target : String}
    {entry : NamedQuery} (hget : r.library.get? target = some entry)
    (hweight : weight.checkedMul entry.coefficient = .ok product)
    (h : r.ShowsSame other product entry total) (name : String) (k : Decimal) :
    r.ShowsSame other weight (.reference name k target) total := by
  intro path depth visiting report hreport
  have hdepth := not_deep_of_ok hreport
  by_cases hin : target ∈ visiting
  · rw [expandWith_cyclic hdepth hget hin] at hreport
    cases hreport
  · rw [expandWith_reference hdepth hget hin] at hreport
    obtain ⟨product', hproduct', hreport⟩ := bind_eq_ok.1 hreport
    obtain rfl : product' = product := Except.ok.inj (hproduct'.symm.trans hweight)
    obtain ⟨found, hfound, hshown⟩ := h _ _ _ report hreport
    refine ⟨found, ?_, hshown⟩
    rw [expandWith_reference (r := r.withLedger other) hdepth hget hin]
    exact bind_eq_ok.2 ⟨product', hproduct', hfound⟩

theorem partsShowSame_nil (weight : Decimal) : r.PartsShowSame other weight [] [] := by
  intro path depth visiting reports hreports
  cases hreports
  exact ⟨[], .nil, rfl, .nil⟩

theorem partsShowSame_cons {weight product total : Decimal} {query : NamedQuery}
    {rest : List NamedQuery} {totals : List Decimal}
    (hweight : weight.checkedMul query.coefficient = .ok product)
    (hquery : r.ShowsSame other product query total)
    (hrest : r.PartsShowSame other weight rest totals) :
    r.PartsShowSame other weight (query :: rest) (total :: totals) := by
  intro path depth visiting reports hreports
  obtain ⟨report, more, ⟨product', hproduct', hreport⟩, hmore, rfl⟩ :=
    List.forall₂_cons_left_iff.1 hreports
  obtain rfl : product' = product := Except.ok.inj (hproduct'.symm.trans hweight)
  obtain ⟨found, hfound, htotal, hsame⟩ := hquery _ _ _ report hreport
  obtain ⟨others, hothers, htotals, hsames⟩ := hrest _ _ _ more hmore
  exact ⟨found :: others, .cons ⟨product', hproduct', hfound⟩ hothers,
    by rw [List.map_cons, htotal, htotals], .cons hsame hsames⟩

/-- What a named query holds shows the same over both ledgers, if it is exact. -/
theorem ComesTo.showsSame (h : r.ledger.Reorders other) {weight total : Decimal} {q : NamedQuery}
    (hexact : r.ComesTo weight q total) : r.ShowsSame other weight q total := by
  -- the induction is on how the total came about, for queries and lists of them at once
  refine @ComesTo.rec r (fun weight q total _ => r.ShowsSame other weight q total)
    (fun weight parts totals _ => r.PartsShowSame other weight parts totals)
    ?grouped ?composite ?reference ?nil ?cons weight q total hexact
  case grouped =>
    intro weight total k name query records tree hconvert hsum htree hlines
    exact showsSame_grouped h hconvert hsum htree hlines name k
  case composite =>
    intro weight total k name parts totals _ hsum ih
    exact showsSame_composite ih hsum name k
  case reference =>
    intro weight product total k name target entry hget hweight _ ih
    exact showsSame_reference hget hweight ih name k
  case nil =>
    intro weight
    exact partsShowSame_nil weight
  case cons =>
    intro weight product total query rest totals hweight _ _ ihquery ihrest
    exact partsShowSame_cons hweight ihquery ihrest

/-- The reports of a named query over both ledgers. -/
theorem report_reordered (h : r.ledger.Reorders other) {q : NamedQuery} {weight total : Decimal}
    {report : Report} (hweight : Decimal.one.checkedMul q.coefficient = .ok weight)
    (hexact : r.ComesTo weight q total) (hreport : r.report q = .ok report) :
    ∃ found, (r.withLedger other).report q = .ok found ∧ report.SameAs found := by
  rw [← reportWith_checked] at hreport ⊢
  obtain ⟨weight', hweight', hbody⟩ := bind_eq_ok.1 hreport
  obtain rfl : weight' = weight := Except.ok.inj (hweight'.symm.trans hweight)
  obtain ⟨found, hfound, _, hsame⟩ := hexact.showsSame h _ _ _ report hbody
  exact ⟨found, bind_eq_ok.2 ⟨weight', hweight', hfound⟩, hsame⟩

/-- Results do not depend on the order of the ledger. Postings that add up exactly have, in any
    order, subtotals that are alike and have one text, whatever is gathered and read; a place among
    them identifies a voucher, as it does in a ledger. And a report that multiplies and adds up
    exactly has, over the ledger with its vouchers and their details in another order, the same
    text and a total of the same value. -/
theorem results_ignore_order :
    (∀ (spec : Subtotal.Spec) (rates : RateLookup)
        (entries others records : List (Posting × Decimal)),
      entries.Perm others → Subtotal.OfOneVoucherEach entries →
      spec.convertAll rates entries = .ok records → ExactlySummable (records.map (·.2)) →
      ∃ tree other, Subtotal.ofPostings spec rates entries = .ok tree ∧
        Subtotal.ofPostings spec rates others = .ok other ∧
        tree.Alike spec.effectiveLevels.length other ∧
        ∀ (currency user : String) (names : AccountNames),
          (⟨currency, user, compare⟩ : Presentation).text names spec tree =
            (⟨currency, user, compare⟩ : Presentation).text names spec other) ∧
    (∀ (r : Reporter) (other : Ledger) (q : NamedQuery) (report : Report) (weight total : Decimal),
      r.ledger.Reorders other → r.report q = .ok report →
      Decimal.one.checkedMul q.coefficient = .ok weight → r.ComesTo weight q total →
      ∃ found, (r.withLedger other).report q = .ok found ∧ found.text = report.text ∧
        found.total.toRat = report.total.toRat) := by
  refine ⟨?_, ?_⟩
  · intro spec rates entries others records hperm hvouchers hconvert hsum
    obtain ⟨tree, other, htree, hother, halike⟩ := Subtotal.ofPostings_alike
      Function.injective_id (.of_perm hperm) hvouchers hconvert hsum
    exact ⟨tree, other, htree, hother, halike,
      fun _ _ _ => Presentation.text_eq_of_alike halike⟩
  · intro r other q report weight total hreorders hreport hweight hexact
    obtain ⟨found, hfound, hsame⟩ := report_reordered hreorders hweight hexact hreport
    exact ⟨found, hfound, hsame.text_eq, hsame.total_eq⟩

/-! ## A lunch and a bill -/

section

open Subtotal (cents lunch purchases purchasesInDollars dollarsByMonth)

/-- A bill for meals, after the lunch. -/
def bill : Voucher :=
  { Voucher.dated ⟨2024, 1, 25, by decide⟩ with details := [.ofTitle 6602 (cents 1000)] }

/-- A ledger with both. -/
def lunchReporter : Reporter where
  ledger := lunch ++ [bill]
  rates := fun _ _ _ => none
  library := .empty
  names := fun _ => none
  options := .standard

/-- Both in the other order, and the lunch with its details in the other order. -/
def billFirst : Ledger := bill :: lunch.map fun v => { v with details := v.details.reverse }

/-- The coefficient of the report below. -/
def two : Decimal := (Decimal.ofParts? 2 0).getD .zero

/-- All that was booked, by title. -/
def byTitle : GroupedQuery := ⟨.everything, .ofLevels [.title]⟩

/-- Twice as much of it. -/
def twice : NamedQuery := .composite "books" two [.grouped "all" .one byTitle]

/-- The subtotal: the lunch was paid in cash, the bill is still open. -/
def lunchTree : Tree :=
  ⟨.root, cents 1000,
    [⟨.title 1001, cents (-250), [], []⟩, ⟨.title 6602, cents 1250, [], []⟩], []⟩

theorem reorders_billFirst : lunchReporter.ledger.Reorders billFirst :=
  ⟨_, .cons ⟨_, .swap _ _ _, rfl⟩ (.cons ⟨_, .refl _, rfl⟩ .nil), .swap _ _ _⟩

theorem comesTo_lunchTree : Report.ComesTo two none [.title] lunchTree (cents 2000) := by
  have horder : lunchTree.inKeyOrder = lunchTree.children :=
    List.mergeSort_of_pairwise (by decide)
  refine ⟨[cents (-500), cents 2500], ?_, ⟨2, .of_scale_le ?_ ?_ ?_⟩, rfl⟩
  · rw [horder]
    exact .cons ⟨rfl, by decide +kernel⟩ (.cons ⟨rfl, by decide +kernel⟩ .nil)
  · decide
  · decide
  · decide +kernel

theorem treeOf_byTitle : lunchReporter.treeOf byTitle = .ok lunchTree := rfl

theorem exactlySummable_lunch :
    ExactlySummable ((byTitle.query.select lunchReporter.ledger).map (·.2)) :=
  ⟨2, .of_scale_le (by decide) (by decide) (by decide +kernel)⟩

theorem comesTo_twice : lunchReporter.ComesTo two twice (cents 2000) := by
  have hall : lunchReporter.ComesTo two (.grouped "all" .one byTitle) (cents 2000) :=
    .grouped rfl exactlySummable_lunch treeOf_byTitle comesTo_lunchTree
  refine .composite (.cons rfl hall .nil) ⟨⟨2, .of_scale_le ?_ ?_ ?_⟩, rfl⟩
  · decide
  · decide
  · decide +kernel

theorem report_twice : ∃ report, lunchReporter.report twice = .ok report := by
  obtain ⟨report, _, hreport, _, htotal, _⟩ := subtotal_reordered reorders_billFirst
    rfl exactlySummable_lunch treeOf_byTitle comesTo_lunchTree rfl "books/all"
  have hparts : lunchReporter.partsWith .checked "books" two 1 [] .zero
      [.grouped "all" .one byTitle] = .ok (cents 2000, [report.text]) := by
    refine partsWith_eq_ok.2 ⟨[report], .cons ⟨_, rfl, ?_⟩ .nil, ?_, rfl⟩
    · rw [expandWith_grouped (by decide), subtotalWith_checked]
      exact hreport
    · rw [List.map_singleton, htotal]
      rfl
  refine ⟨⟨cents 2000, Report.joinBlocks [report.text]⟩, ?_⟩
  rw [← reportWith_checked]
  refine bind_eq_ok.2 ⟨two, rfl, ?_⟩
  exact (expandWith_composite (by decide) _).trans (bind_eq_ok.2 ⟨_, hparts, rfl⟩)

theorem results_ignore_order_lunch :
    (∃ tree other,
      Subtotal.ofPostings dollarsByMonth (fun _ _ _ => Decimal.ofParts? 2 0) purchases = .ok tree ∧
      Subtotal.ofPostings dollarsByMonth (fun _ _ _ => Decimal.ofParts? 2 0) purchases.reverse =
        .ok other ∧
      tree.Alike dollarsByMonth.effectiveLevels.length other ∧
      ∀ (currency user : String) (names : AccountNames),
        (⟨currency, user, compare⟩ : Presentation).text names dollarsByMonth tree =
          (⟨currency, user, compare⟩ : Presentation).text names dollarsByMonth other) ∧
    ∃ report found, lunchReporter.report twice = .ok report ∧
      (lunchReporter.withLedger billFirst).report twice = .ok found ∧ found.text = report.text ∧
        found.total.toRat = report.total.toRat := by
  refine ⟨?_, ?_⟩
  · refine results_ignore_order.1 dollarsByMonth _ purchases purchases.reverse purchasesInDollars
      (List.reverse_perm _).symm ?_ rfl ?_
    · unfold Subtotal.OfOneVoucherEach
      decide
    · exact ⟨2, .of_scale_le (by decide) (by decide) (by decide +kernel)⟩
  · obtain ⟨report, hreport⟩ := report_twice
    obtain ⟨found, hfound⟩ := results_ignore_order.2 lunchReporter billFirst twice report _ _
      reorders_billFirst hreport rfl comesTo_twice
    exact ⟨report, found, hreport, hfound⟩

end

end Reporter

end Bookkeeping
