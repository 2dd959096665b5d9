import Bookkeeping.Decimal.Text
import Bookkeeping.Ledger.Chart
import Bookkeeping.Subtotal.Walk

set_option autoImplicit false

/-! # Subtotals as text

Sibling groups are ordered for display by the settings of a presentation: the home currency and the
user at home come before all others, missing values before those that are there, and texts follow a
collation.

A tree is written one line per group, parents before their children and siblings in order. The
first line is the grand total alone; below it each line has the label of its group and the fund,
indented by a tab for every level above. Titles and sub-titles carry their names where these are
known, a sub-title that of the account under the title nearest above it. The readings of a
last-level group follow its line. -/

namespace Bookkeeping

/-! ## The order of siblings -/

/-- Settings of a presentation. -/
structure Presentation where
  /-- The currency listed first. -/
  homeCurrency : String
  /-- The user listed first. -/
  homeUser : String
  /-- The order of texts. -/
  collation : String → String → Ordering

namespace Presentation

open Subtotal (Key)

/-- The settings for the home currency and the default user, texts ordered by code point. -/
def standard : Presentation := ⟨Bookkeeping.homeCurrency, defaultUser, compare⟩

instance : Inhabited Presentation := ⟨standard⟩

/-- Compares two names, of which the one at home comes before all others. -/
def compareHomeFirst (s : Presentation) (home a b : String) : Ordering :=
  (compare (decide (a ≠ home)) (decide (b ≠ home))).then (s.collation a b)

/-- Compares the keys of sibling groups. -/
def compareKeys (s : Presentation) : Key → Key → Ordering
  | .currency a, .currency b => s.compareHomeFirst s.homeCurrency a b
  | .user a, .user b => s.compareHomeFirst s.homeUser a b
  | .content a, .content b | .remark a, .remark b => Key.compareOptions s.collation a b
  | a, b => compare a b

end Presentation

/-! ## Lines -/

/-- The names of accounts; none where an account has no name or names are not wanted. -/
abbrev AccountNames : Type := Account → Option String

namespace Presentation

open Subtotal (Key Tree Visit Walk Spec)

/-- The name of the account that a key stands for, under the title above it. -/
def accountName? (names : AccountNames) (titleAbove : Option Int32) : Key → Option String
  | .title t => names ⟨t, none⟩
  | .subTitle (some s) => titleAbove.bind fun t => names ⟨t, some s⟩
  | _ => none

/-- The title that groups below a key stand under. -/
def titleBelow (titleAbove : Option Int32) : Key → Option Int32
  | .title t => some t
  | _ => titleAbove

/-- An indentation. -/
def tabs (n : Nat) : String := String.ofList (List.replicate n '\t')

/-- The line of a group. -/
def groupLine (names : AccountNames) (titleAbove : Option Int32) (v : Visit) : String :=
  let fund := v.tree.fund.fundText
  if v.depth = 0 then fund
  else
    let name := (accountName? names titleAbove v.tree.key).elim "" (" " ++ ·)
    tabs (v.depth - 1) ++ v.label ++ name ++ "\t" ++ fund

/-- The line of a reading. -/
def readingLine (v : Visit) (r : Reading) (interval : Granularity) : String :=
  tabs v.depth ++ interval.label r.date ++ "\t" ++ r.fund.fundText

/-- The walk that writes lines. Its path is the title nearest above. -/
def textWalk (s : Presentation) (names : AccountNames) : Walk Id (Option Int32) (List String) where
  leaf title v := [groupLine names title v]
  reading _ v r interval := [readingLine v r interval]
  down title child := titleBelow title child.tree.key
  up _ _ _ lines := lines
  combine title v blocks := groupLine names title v :: blocks.flatten
  order _ children := children.mergeSort fun a b => (s.compareKeys a.key b.key).isLE

/-- The lines of a tree. -/
def textLines (s : Presentation) (names : AccountNames) (spec : Spec) (tree : Tree) : List String :=
  ((textWalk s names).run spec none tree).run

/-- A tree as text. -/
def text (s : Presentation) (names : AccountNames) (spec : Spec) (tree : Tree) : String :=
  "\n".intercalate (s.textLines names spec tree)

end Presentation

end Bookkeeping
