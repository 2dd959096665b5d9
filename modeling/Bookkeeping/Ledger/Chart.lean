import Bookkeeping.Keyed

set_option autoImplicit false

/-! # The chart of accounts

The thousands of an account title tell its class. Which name stands for a title, or for a
sub-title under it, is looked up in a chart of accounts; a later entry for the same account
replaces an earlier one. -/

namespace Bookkeeping

/-! ## Classes of titles -/

/-- The class of an account title. -/
inductive TitleClass where
  | asset
  | liability
  /-- Accounts that may stand on either side. -/
  | eitherSide
  | equity
  | cost
  | revenue
  | expense
deriving DecidableEq, Repr

/-- The class of a title, none outside the chart. -/
def TitleClass.of? (title : Int32) : Option TitleClass :=
  let t := title.toInt
  if 1000 ≤ t ∧ t < 2000 then some asset
  else if 2000 ≤ t ∧ t < 3000 then some liability
  else if 3000 ≤ t ∧ t < 4000 then some eitherSide
  else if 4000 ≤ t ∧ t < 5000 then some equity
  else if 5000 ≤ t ∧ t < 6000 then some cost
  else if 6000 ≤ t ∧ t < 6400 then some revenue
  else if 6400 ≤ t ∧ t < 7000 then some expense
  else none

/-! ## Names of accounts -/

/-- A title, or a sub-title under it. -/
structure Account where
  title : Int32
  subTitle : Option Int32
deriving DecidableEq

/-- The names of accounts; no account has two. -/
structure ChartOfAccounts where
  names : Keyed (Prod.fst : Account × String → Account)

namespace ChartOfAccounts

/-- The chart that names no account. -/
def empty : ChartOfAccounts := ⟨.empty⟩

/-- Names an account, in place of any earlier name. -/
def insert (chart : ChartOfAccounts) (account : Account) (name : String) : ChartOfAccounts :=
  ⟨chart.names.insert (account, name)⟩

/-- The chart of a list of entries. -/
def ofList (entries : List (Account × String)) : ChartOfAccounts :=
  ⟨.ofList entries⟩

/-- The name of an account. -/
def name? (chart : ChartOfAccounts) (account : Account) : Option String :=
  (chart.names.find? account).map (·.2)

/-- The number of named accounts. -/
def size (chart : ChartOfAccounts) : Nat := chart.names.items.length

/-- Whether no account is named. -/
def isEmpty (chart : ChartOfAccounts) : Bool := chart.names.items.isEmpty

theorem name?_insert (chart : ChartOfAccounts) (account other : Account) (name : String) :
    (chart.insert account name).name? other =
      if account = other then some name else chart.name? other := by
  rw [name?, insert, Keyed.find?_insert, name?]
  split <;> rfl

end ChartOfAccounts

end Bookkeeping
