import Bookkeeping.Subtotal.Spec
import Bookkeeping.Text

set_option autoImplicit false

/-! # Group keys

The value that the postings of a group have in common at a level. Keys have a natural order, by
level first and then by value with missing values in front, and a label for display. -/

namespace Bookkeeping.Subtotal

/-- The value that a group was formed by. -/
inductive Key where
  /-- The group of everything. -/
  | root
  | currency (name : String)
  | title (number : Int32)
  | subTitle (number : Option Int32)
  | content (text : Option String)
  | remark (text : Option String)
  | user (name : String)
  /-- A bucket; the undated one has no date. -/
  | date (bucket : Option Date)
deriving DecidableEq

namespace Key

/-- The key of a posting at a level. -/
def of (level : Level) (p : Posting) : Key :=
  match level with
  | .currency => currency p.detail.currency
  | .title => title p.detail.title
  | .subTitle => subTitle p.detail.subTitle
  | .content => content p.detail.content
  | .remark => remark p.detail.remark
  | .user => user p.detail.user
  | .date g => date (p.date.map g.start)

/-- The label of a key, with dates as buckets of the given size. Titles have four digits and
    sub-titles two; missing values are empty, except that undated buckets have a label. -/
def label (g : Granularity) : Key → String
  | root | subTitle none | content none | remark none => ""
  | currency s | user s | content (some s) | remark (some s) => s
  | title t => String.ofList (Text.padded 4 t.toInt)
  | subTitle (some t) => String.ofList (Text.padded 2 t.toInt)
  | date d => g.label d

/-! ## Natural order -/

/-- The place of the level that a key belongs to. -/
def rank : Key → Nat
  | root => 0
  | currency _ => 1
  | title _ => 2
  | subTitle _ => 3
  | content _ => 4
  | remark _ => 5
  | user _ => 6
  | date _ => 7

/-- Compares optional values, a missing one coming first. -/
def compareOptions {α : Type} (cmp : α → α → Ordering) : Option α → Option α → Ordering
  | none, none => .eq
  | none, some _ => .lt
  | some _, none => .gt
  | some a, some b => cmp a b

/-- Titles by number. -/
def compareTitles (a b : Int32) : Ordering := compare a.toInt b.toInt

/-- The natural order: by level, then numbers by size, texts by code point and dates by day. -/
def compareKeys : Key → Key → Ordering
  | currency a, currency b | user a, user b => compare a b
  | title a, title b => compareTitles a b
  | subTitle a, subTitle b => compareOptions compareTitles a b
  | content a, content b | remark a, remark b => compareOptions compare a b
  | date a, date b => compareOptions compare a b
  | a, b => compare a.rank b.rank

instance : Ord Key := ⟨compareKeys⟩

end Key

end Bookkeeping.Subtotal
