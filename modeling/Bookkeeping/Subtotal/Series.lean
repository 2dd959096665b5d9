import Bookkeeping.Calendar.Range
import Bookkeeping.Calendar.Walk
import Bookkeeping.Failure

set_option autoImplicit false

/-! # Running balances

Movements are dated changes of a balance; a reading is the balance at the end of a bucket.
`changedDay` reads the balance on the first day and on every day it differs from the reading
before it; undated movements come first and make up a reading of their own. `everyDay` reads it
once per bucket over a range: what lies before the range and what is undated is the opening
balance, and what lies after it is left out.

The buckets of `everyDay` are windows that follow one another. For billing and financial months
a window differs from the group of the same name: a group takes dates from both sides of its
anchor, a window only those from the anchor on. -/

namespace Bookkeeping

/-- A dated change of a balance. -/
abbrev Movement : Type := Option Date × Decimal

/-- The balance at the end of a bucket; without a date it is the undated one. -/
structure Reading where
  date : Option Date
  fund : Decimal
deriving DecidableEq

namespace Series

/-- Whether a date does not come after another; undated comes first. -/
def notAfter : Option Date → Option Date → Bool
  | none, _ => true
  | some _, none => false
  | some a, some b => a ≤ b

/-- The movements by date, those of one date in the order given. -/
def byDate (movements : List Movement) : List Movement :=
  movements.mergeSort fun a b => notAfter a.1 b.1

/-! ## Changed days -/

/-- The readings of movements in the order of their dates, from a balance on. The last reading
    so far tells whether the balance has changed. -/
def changesFrom (balance : Decimal) (last : Option Decimal) :
    List Movement → Except Failure (List Reading)
  | [] => .ok []
  | (date, amount) :: rest => do
      let balance ← balance.checkedAdd amount
      if rest.head?.any (·.1 = date) || last.any (·.near balance) then
        changesFrom balance last rest
      else
        return ⟨date, balance⟩ :: (← changesFrom balance (some balance) rest)

/-- The balance on the first day and on every day it has changed. -/
def changedDay (movements : List Movement) : Except Failure (List Reading) :=
  changesFrom .zero none (byDate movements)

/-! ## Every day -/

/-- The readings of buckets in order, from a balance and the movements not yet in it; no window
    reaches beyond `finish`. -/
def readBuckets (g : Granularity) (finish : Date) (balance : Decimal)
    (pending : List (Date × Decimal)) : List Date → Except Failure (List Reading)
  | [] => .ok []
  | bucket :: rest => do
      let last := Date.earlier (g.lastDay bucket) finish
      let balance ← balance.checkedSumFrom ((pending.takeWhile (·.1 ≤ last)).map (·.2))
      let pending := pending.dropWhile (·.1 ≤ last)
      return ⟨some bucket, balance⟩ :: (← readBuckets g finish balance pending rest)

/-- The movements that have a date. -/
def dated (movements : List Movement) : List (Date × Decimal) :=
  movements.filterMap fun (date, amount) => date.map (·, amount)

/-- The balance at the end of every bucket of a range. Open ends are closed by the first and the
    last dated movement; without those there is nothing to read. -/
def everyDay (movements : List Movement) (range : DateRange) (interval : Granularity) :
    Except Failure (List Reading) :=
  let movements := byDate movements
  let moves := dated movements
  match range.first.or (moves.head?.map (·.1)), range.last.or (moves.getLast?.map (·.1)) with
  | some start, some finish =>
      if finish < start then .ok []
      else do
        let opening := movements.filter fun m => m.1.all (· < start)
        let balance ← Decimal.checkedSum (opening.map (·.2))
        readBuckets interval finish balance (moves.dropWhile (·.1 < start))
          (interval.bucketsUpTo finish (interval.start start))
  | _, _ => .ok []

end Series

end Bookkeeping
