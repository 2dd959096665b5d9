import Bookkeeping.Calendar.Granularity
import Bookkeeping.Calendar.Range
import Bookkeeping.Json

set_option autoImplicit false

/-! # Stored values

How values are kept as JSON. A record is an object; members it does not know are passed over,
and those that may be left out have a value of their own then. A record is also read from the
bare array of its values in the order of its members, of which the last ones may be left out. A
choice without data is its name, and a choice with data is an object with one member, named for
the choice.

This module has the rules all records share, and the stored forms of plain values, dates,
amounts, date ranges and bucket sizes. -/

namespace Bookkeeping

/-- Values that are kept as JSON. -/
class Stored (α : Type) where
  toJson : α → Json
  ofJson? : Json → Option α

export Stored (toJson ofJson?)

/-! ## Plain values -/

instance : Stored String where
  toJson := .text
  ofJson?
    | .text s => some s
    | _ => none

instance : Stored Bool where
  toJson := .bool
  ofJson?
    | .bool b => some b
    | _ => none

instance : Stored Int32 where
  toJson i := .int i.toInt
  ofJson?
    | .int i => if Int32.minValue.toInt ≤ i ∧ i ≤ Int32.maxValue.toInt then some (Int32.ofInt i)
        else none
    | _ => none

instance : Stored UInt64 where
  toJson n := .int n.toNat
  ofJson?
    | .int i => if 0 ≤ i ∧ i < UInt64.size then some (UInt64.ofNat i.toNat) else none
    | _ => none

/-- A missing value is null. -/
instance {α : Type} [Stored α] : Stored (Option α) where
  toJson
    | none => .null
    | some a => toJson a
  ofJson?
    | .null => some none
    | j => (ofJson? j).map some

instance {α : Type} [Stored α] : Stored (List α) where
  toJson as := .array (as.map toJson)
  ofJson?
    | .array items => items.mapM ofJson?
    | _ => none

/-! ## Records and their members -/

namespace Json

/-- The members of a record with the given member names. -/
def record? (names : List String) : Json → Option Members
  | object members => some members
  | array items => if items.length ≤ names.length then some (names.zip items) else none
  | _ => none

/-- A member of a record is smaller than the value the record is read from. -/
theorem sizeOf_get?_record?_lt {names : List String} {j value : Json} {members : Members}
    {name : String} (hrecord : j.record? names = some members)
    (hget : members.get? name = some value) : sizeOf value < sizeOf j := by
  cases j with
  | object ms =>
      simp only [record?, Option.some.injEq] at hrecord
      subst hrecord
      have := Members.sizeOf_get?_lt hget
      simp only [object.sizeOf_spec]
      omega
  | array items =>
      simp only [record?] at hrecord
      split at hrecord
      · injection hrecord with hrecord
        subst hrecord
        have hmem := (List.of_mem_zip (Members.mem_of_get? hget)).2
        have := List.sizeOf_lt_of_mem hmem
        simp only [array.sizeOf_spec]
        omega
      · contradiction
  | null | bool | int | real | text => simp [record?] at hrecord

end Json

namespace Json.Members

variable {α : Type} [Stored α]

/-- The value of a member that has to be there. -/
def field (members : Members) (name : String) : Option α :=
  (members.get? name).bind ofJson?

/-- The value of a member, or a given one where it is left out. -/
def fieldD (members : Members) (name : String) (default : α) : Option α :=
  match members.get? name with
  | some j => ofJson? j
  | none => some default

/-- The value of a member that may be null or left out. -/
def field? (members : Members) (name : String) : Option (Option α) :=
  members.fieldD name none

/-- One member, left out where there is no value. -/
def ofOption (name : String) (value : Option α) : Members :=
  value.toList.map fun a => (name, toJson a)

end Json.Members

/-! ## Choices -/

/-- The choice among `all` that a JSON value names. -/
def choice? {α : Type} (all : List α) (name : α → String) : Json → Option α
  | .text s => all.find? (name · = s)
  | .object [(s, .null)] => all.find? (name · = s)
  | _ => none

/-- A choice that is told by a text among the other members of its record, or by the first
    value of an array: the text, and the value that the other members are read from. -/
def tagged? (tag : String) : Json → Option (String × Json)
  | .object members => (Json.Members.field members tag).map fun choice => (choice, .object members)
  | .array (.text choice :: rest) => some (choice, .array rest)
  | _ => none

/-! ## Amounts, dates, ranges, buckets -/

/-- Amounts are kept as text, so that their scale is kept too; numbers are read as well. -/
instance : Stored Decimal where
  toJson a := .text a.toText
  ofJson?
    | .text s => Decimal.ofText? s
    | .int i => Decimal.ofParts? i 0
    | .real x => Decimal.ofDouble? x
    | _ => none

instance : Stored Date where
  toJson d := .text d.toText
  ofJson?
    | .text s => Date.ofText? s
    | _ => none

/-- Each part of a range may be left out. A range without word on undated records does not
    include them. -/
instance : Stored DateRange where
  toJson r := .object
    [("start", toJson r.first), ("end", toJson r.last), ("nullable", toJson r.nullable),
     ("null_only", toJson r.nullOnly)]
  ofJson? j := do
    let o ← j.record? ["start", "end", "nullable", "null_only"]
    return ⟨← o.field? "start", ← o.field? "end", ← o.fieldD "nullable" false,
      ← o.fieldD "null_only" false⟩

namespace Granularity

/-- All bucket sizes. -/
def all : List Granularity := [.day, .week, .month, .year, .billingMonth, .financialMonth]

/-- The name that a bucket size is stored by. -/
def storedName : Granularity → String
  | day => "day"
  | week => "week"
  | month => "month"
  | year => "year"
  | billingMonth => "billing_month"
  | financialMonth => "financial_month"

instance : Stored Granularity where
  toJson g := .text g.storedName
  ofJson? := choice? all storedName

end Granularity

end Bookkeeping
