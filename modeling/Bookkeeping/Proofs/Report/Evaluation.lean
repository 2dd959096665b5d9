import Bookkeeping.Proofs.Subtotal.Conservation
import Bookkeeping.Report.Expansion

set_option autoImplicit false

/-! # Reports as values

The expansion of a named query works on the names of the entries being expanded, as a state that
outlives failures. Here it is evaluated without state: `Reporter.expandWith` takes these names as
an argument and ends because every reference leaves fewer entries to expand and every part is
smaller than its composite, whatever the depth allowed. `Reporter.run_expandBody` says that the
two agree and that each step leaves the names as it found them.

The evaluation is generic in how amounts are added and multiplied, so that the same report can be
asked for in an arithmetic that refuses to round. -/

namespace Bookkeeping

/-! ## Lines -/

namespace Report

open Subtotal (Walk Spec Tree)
open Presentation (titleBelow)

/-- The line of a value. -/
def lineWith (ar : Arithmetic) (coefficient : Decimal) (path : String) (value : Decimal) :
    Except Failure Report := do
  let weighted ← ar.mul value coefficient
  return ⟨weighted, path ++ "\t" ++ value.fundText ++ "\t" ++ coefficient.fundText ++ "\t"
    ++ weighted.fundText⟩

/-- Reports one below the other. -/
def joinWith (ar : Arithmetic) (reports : List Report) : Except Failure Report := do
  let total ← ar.sum (reports.map (·.total))
  return ⟨total, joinBlocks (reports.map (·.text))⟩

/-- The walk that writes weighted lines. -/
def lineWalkWith (ar : Arithmetic) (coefficient : Decimal) (names : AccountNames) :
    Walk (Except Failure) Place Report :=
  { lineWalk coefficient names with
    leaf := fun place v => lineWith ar coefficient place.path v.tree.fund
    reading := fun place _ r interval =>
      lineWith ar coefficient (joinPath place.path (interval.label r.date)) r.fund
    combine := fun _ _ reports => joinWith ar reports }

theorem lineWalkWith_checked (coefficient : Decimal) (names : AccountNames) :
    lineWalkWith .checked coefficient names = lineWalk coefficient names := rfl

end Report

/-! ## Expansion -/

namespace Reporter

/-- The lines of a grouped query below a path. -/
def subtotalWith (ar : Arithmetic) (r : Reporter) (q : GroupedQuery) (path : String)
    (coefficient : Decimal) : Except Failure Report := do
  if q.query.isUnbounded && !r.options.allowUnbounded then
    throw (.refused .unbounded)
  let tree ← Subtotal.ofPostingsWith ar q.subtotal r.rates (q.query.select r.ledger)
  (Report.lineWalkWith ar coefficient r.names).run q.subtotal ⟨path, none⟩ tree

theorem subtotalWith_checked (r : Reporter) (q : GroupedQuery) (path : String)
    (coefficient : Decimal) : r.subtotalWith .checked q path coefficient =
      r.subtotal q path coefficient := by
  rw [subtotalWith, Subtotal.ofPostingsWith_checked, Report.lineWalkWith_checked]
  rfl

mutual

/-- The report of what a named query holds, while the entries of the given names are being
    expanded. -/
def expandWith (ar : Arithmetic) (r : Reporter) (path : String) (coefficient : Decimal)
    (depth : Nat) (visiting : List String) (q : NamedQuery) : Except Failure Report :=
  if r.options.maxDepth.toNat < depth then .error (.depthExceeded r.options.maxDepth.toNat)
  else
    match q with
    | .grouped _ _ query => r.subtotalWith ar query path coefficient
    | .composite _ _ parts => do
        let (total, blocks) ← r.partsWith ar path coefficient (depth + 1) visiting .zero parts
        return ⟨total, Report.joinBlocks blocks⟩
    | .reference _ _ target =>
        match _hget : r.library.get? target with
        | none => .error (.unknownNamedQuery target)
        | some entry =>
            if _hnot : visiting.contains target then .error (.cyclicReference target)
            else do
              let weight ← ar.mul coefficient entry.coefficient
              r.expandWith ar path weight (depth + 1) (target :: visiting) entry
termination_by (r.library.countOutside visiting, sizeOf q)
decreasing_by
  · apply Prod.Lex.right
    simp only [NamedQuery.composite.sizeOf_spec]
    omega
  · apply Prod.Lex.left
    exact Library.countOutside_cons_lt _hget (by simpa using _hnot)

/-- The sum of the totals of parts, on top of a total so far, and the lines of each part. -/
def partsWith (ar : Arithmetic) (r : Reporter) (path : String) (coefficient : Decimal)
    (depth : Nat) (visiting : List String) (total : Decimal) :
    List NamedQuery → Except Failure (Decimal × List String)
  | [] => .ok (total, [])
  | part :: rest => do
      let weight ← ar.mul coefficient part.coefficient
      let report ← r.expandWith ar (Report.joinPath path part.name) weight depth visiting part
      let total ← ar.add total report.total
      let (total, blocks) ← r.partsWith ar path coefficient depth visiting total rest
      return (total, report.text :: blocks)
termination_by parts => (r.library.countOutside visiting, sizeOf parts)
decreasing_by
  · apply Prod.Lex.right
    simp only [List.cons.sizeOf_spec]
    omega
  · apply Prod.Lex.right
    simp only [List.cons.sizeOf_spec]
    omega

end

/-- The report of a named query. -/
def reportWith (ar : Arithmetic) (r : Reporter) (q : NamedQuery) : Except Failure Report := do
  let weight ← ar.mul .one q.coefficient
  r.expandWith ar (Report.joinPath "" q.name) weight 0 [] q

/-! ## One equation for each case -/

section

variable {ar : Arithmetic} {r : Reporter} {path : String} {coefficient k : Decimal} {depth : Nat}
  {visiting : List String} {name target : String} {entry : NamedQuery}

theorem expandWith_deep (h : r.options.maxDepth.toNat < depth) (q : NamedQuery) :
    r.expandWith ar path coefficient depth visiting q =
      .error (.depthExceeded r.options.maxDepth.toNat) := by
  rw [expandWith.eq_def, if_pos h]

theorem expandWith_grouped (h : ¬ r.options.maxDepth.toNat < depth) (query : GroupedQuery) :
    r.expandWith ar path coefficient depth visiting (.grouped name k query) =
      r.subtotalWith ar query path coefficient := by
  rw [expandWith, if_neg h]

theorem expandWith_composite (h : ¬ r.options.maxDepth.toNat < depth) (parts : List NamedQuery) :
    r.expandWith ar path coefficient depth visiting (.composite name k parts) =
      (do
        let (total, blocks) ← r.partsWith ar path coefficient (depth + 1) visiting .zero parts
        return ⟨total, Report.joinBlocks blocks⟩) := by
  rw [expandWith, if_neg h]

theorem expandWith_unknown (h : ¬ r.options.maxDepth.toNat < depth)
    (hget : r.library.get? target = none) :
    r.expandWith ar path coefficient depth visiting (.reference name k target) =
      .error (.unknownNamedQuery target) := by
  rw [expandWith, if_neg h]
  split
  · rfl
  · next hsome => rw [hget] at hsome; contradiction

theorem expandWith_cyclic (h : ¬ r.options.maxDepth.toNat < depth)
    (hget : r.library.get? target = some entry) (hin : target ∈ visiting) :
    r.expandWith ar path coefficient depth visiting (.reference name k target) =
      .error (.cyclicReference target) := by
  rw [expandWith, if_neg h]
  split
  · next hnone => rw [hget] at hnone; contradiction
  · rw [dif_pos (by simpa using hin)]

theorem expandWith_reference (h : ¬ r.options.maxDepth.toNat < depth)
    (hget : r.library.get? target = some entry) (hnot : target ∉ visiting) :
    r.expandWith ar path coefficient depth visiting (.reference name k target) =
      (do
        let weight ← ar.mul coefficient entry.coefficient
        r.expandWith ar path weight (depth + 1) (target :: visiting) entry) := by
  rw [expandWith, if_neg h]
  split
  · next hnone => rw [hget] at hnone; contradiction
  · next found hfound =>
      obtain rfl : entry = found := Option.some.inj (hget.symm.trans hfound)
      rw [dif_neg (by simpa using hnot)]

theorem partsWith_nil (total : Decimal) :
    r.partsWith ar path coefficient depth visiting total [] = .ok (total, []) := by
  rw [partsWith]

theorem partsWith_cons (total : Decimal) (part : NamedQuery) (rest : List NamedQuery) :
    r.partsWith ar path coefficient depth visiting total (part :: rest) =
      (do
        let weight ← ar.mul coefficient part.coefficient
        let report ← r.expandWith ar (Report.joinPath path part.name) weight depth visiting part
        let total ← ar.add total report.total
        let (total, blocks) ← r.partsWith ar path coefficient depth visiting total rest
        return (total, report.text :: blocks)) := by
  rw [partsWith]

end

/-! ## Steps of the expansion -/

/-- The step comes out as `out` says and leaves the names as it found them. -/
def Yields {α : Type} (step : Expanding α) (visiting : List String) (out : Except Failure α) :
    Prop :=
  step.run.run visiting = (out, visiting)

theorem Yields.ofExcept {α : Type} (out : Except Failure α) (visiting : List String) :
    Yields (MonadExcept.ofExcept out) visiting out := by
  cases out <;> rfl

theorem Yields.bind {α β : Type} {step : Expanding α} {next : α → Expanding β}
    {visiting : List String} {out : Except Failure α} {after : α → Except Failure β}
    (hstep : Yields step visiting out) (hnext : ∀ a, Yields (next a) visiting (after a)) :
    Yields (step >>= next) visiting (out >>= after) := by
  have hrun : (step >>= next).run.run visiting =
      ExceptT.bindCont next (step.run.run visiting).1 (step.run.run visiting).2 := rfl
  rw [Yields, hrun, hstep]
  cases out with
  | error e => rfl
  | ok a => exact hnext a

theorem Yields.get {α : Type} {next : List String → Expanding α} {visiting : List String}
    {out : Except Failure α} (hnext : Yields (next visiting) visiting out) :
    Yields (MonadState.get >>= next) visiting out := hnext

/-- A name set aside for a step is given back after it, whether the step fails or not. -/
theorem Yields.setAside {α : Type} {step : Expanding α} {name : String} {visiting : List String}
    {out : Except Failure α} (hstep : Yields step (name :: visiting) out) :
    Yields (do
      modify (name :: ·)
      try step finally modify (·.erase name)) visiting out := by
  -- the step runs once, on `name :: visiting`, so it may be replaced by its result there
  have hconst : ∀ result : Except Failure α × List String,
      (do
        modify (name :: ·)
        try (fun _ => result) finally modify (·.erase name) : Expanding α).run.run visiting =
          (result.1, result.2.erase name) := by
    rintro ⟨_ | _, _⟩ <;> rfl
  have hrun : (do
      modify (name :: ·)
      try step finally modify (·.erase name) : Expanding α).run.run visiting = _ :=
    hconst (step.run.run (name :: visiting))
  rw [Yields, hrun, hstep, List.erase_cons_head]

section

variable {r : Reporter} {path : String} {coefficient k : Decimal} {depth : Nat}
  {visiting : List String} {name target : String} {entry : NamedQuery}

theorem yields_reference (h : ¬ r.options.maxDepth.toNat < depth)
    (hget : r.library.get? target = some entry) (hnot : target ∉ visiting)
    (ih : ∀ weight, Yields (r.expandBody path weight (depth + 1) entry) (target :: visiting)
      (r.expandWith .checked path weight (depth + 1) (target :: visiting) entry)) :
    Yields (r.expandBody path coefficient depth (.reference name k target)) visiting
      (r.expandWith .checked path coefficient depth visiting (.reference name k target)) := by
  rw [expandBody, dif_neg h, expandWith_reference h hget hnot]
  simp only [hget]
  -- the state is read once, before the name is added to it
  refine Yields.get ?_
  rw [if_neg (by simpa using hnot)]
  exact Yields.setAside ((Yields.ofExcept _ _).bind ih)

theorem yields_cyclic (h : ¬ r.options.maxDepth.toNat < depth)
    (hget : r.library.get? target = some entry) (hin : target ∈ visiting) :
    Yields (r.expandBody path coefficient depth (.reference name k target)) visiting
      (r.expandWith .checked path coefficient depth visiting (.reference name k target)) := by
  have hcontains : visiting.contains target = true := by simpa using hin
  rw [expandBody, dif_neg h, expandWith_cyclic h hget hin]
  simp only [hget]
  refine Yields.get ?_
  rw [if_pos hcontains]
  rfl

end

/-- The expansion on a state is the expansion without one, and it leaves the names of the
    entries being expanded as it found them, also where it fails. -/
theorem yields_expand (r : Reporter) :
    (∀ (path : String) (coefficient : Decimal) (depth : Nat) (visiting : List String)
      (q : NamedQuery), Yields (r.expandBody path coefficient depth q) visiting
        (r.expandWith .checked path coefficient depth visiting q)) ∧
    (∀ (path : String) (coefficient : Decimal) (depth : Nat) (visiting : List String)
      (total : Decimal) (parts : List NamedQuery),
      Yields (r.expandParts path coefficient depth total parts) visiting
        (r.partsWith .checked path coefficient depth visiting total parts)) := by
  apply expandWith.mutual_induct r
  case case1 =>
    intro path coefficient depth visiting q hdepth
    rw [expandBody.eq_def, dif_pos hdepth, expandWith_deep hdepth]
    rfl
  case case2 =>
    intro path coefficient depth visiting hdepth name k query
    rw [expandBody, dif_neg hdepth, expandWith_grouped hdepth, subtotalWith_checked]
    exact Yields.ofExcept _ visiting
  case case3 =>
    intro path coefficient depth visiting hdepth name k parts ih
    rw [expandBody, dif_neg hdepth, expandWith_composite hdepth]
    exact ih.bind fun _ => rfl
  case case4 =>
    intro path coefficient depth visiting hdepth name k target hget
    rw [expandBody, dif_neg hdepth, expandWith_unknown hdepth hget]
    simp only [hget]
    rfl
  case case5 =>
    intro path coefficient depth visiting hdepth name k target entry hget hin
    exact yields_cyclic hdepth hget (by simpa using hin)
  case case6 =>
    intro path coefficient depth visiting hdepth name k target entry hget hnot ih
    exact yields_reference hdepth hget (by simpa using hnot) ih
  case case7 =>
    intro path coefficient depth visiting total
    rw [expandParts, partsWith_nil]
    rfl
  case case8 =>
    intro path coefficient depth visiting total part rest ihpart ihrest
    rw [expandParts, partsWith_cons]
    exact (Yields.ofExcept _ _).bind fun weight => (ihpart weight).bind fun report =>
      (Yields.ofExcept _ _).bind fun total => (ihrest total).bind fun _ => rfl

theorem run_expandBody (r : Reporter) (path : String) (coefficient : Decimal) (depth : Nat)
    (visiting : List String) (q : NamedQuery) :
    (r.expandBody path coefficient depth q).run.run visiting =
      (r.expandWith .checked path coefficient depth visiting q, visiting) :=
  (yields_expand r).1 path coefficient depth visiting q

theorem reportWith_checked (r : Reporter) (q : NamedQuery) :
    r.reportWith .checked q = r.report q := by
  simp only [reportWith, report, run_expandBody]
  rfl

end Reporter

end Bookkeeping
