import Bookkeeping.Presentation.Text
import Bookkeeping.Proofs.Subtotal.KeyOrder

set_option autoImplicit false

/-! # The order of siblings in a presentation

What is compared first in a presentation is the level, then whether a currency or a user is not the
one at home, then texts by the collation, then numbers: the order is lexicographic again, as the
natural one is. It is lawful if the collation is. With texts by code point, only equal keys compare
as equal, and the order differs from the natural one only where names are compared: there the one at
home stands in front. -/

namespace Bookkeeping

open Subtotal (Key)

namespace Subtotal.Key

variable {α : Type} {cmp : α → α → Ordering}

instance [Std.OrientedCmp cmp] : Std.OrientedCmp (compareOptions cmp) where
  eq_swap {a b} := by
    cases a <;> cases b
    case some.some a b =>
        show cmp a b = (cmp b a).swap
        exact Std.OrientedCmp.eq_swap
    all_goals rfl

instance [Std.TransCmp cmp] : Std.TransCmp (compareOptions cmp) where
  isLE_trans {a b c} hab hbc := by
    cases a <;> cases b <;> cases c
    case some.some.some a b c => exact @Std.TransCmp.isLE_trans _ cmp _ a b c hab hbc
    all_goals first | rfl | cases hab | cases hbc

instance [Std.LawfulEqCmp cmp] : Std.LawfulEqCmp (compareOptions cmp) where
  compare_self {a} := by
    cases a with
    | none => rfl
    | some a =>
        show cmp a a = .eq
        exact Std.ReflCmp.compare_self
  eq_of_compare {a b} h := by
    cases a <;> cases b
    case none.none => rfl
    case some.some a b =>
        have h : cmp a b = .eq := h
        exact congrArg some (Std.LawfulEqCmp.eq_of_compare h)
    all_goals cases h

/-- A missing value comes before all that are there. -/
theorem compareOptions_of_isNone {a b : Option α} (ha : a.isNone = true) (hb : b.isNone = false) :
    compareOptions cmp a b = .lt := by
  cases a with
  | some a => cases ha
  | none =>
      cases b with
      | none => cases hb
      | some b => rfl

/-- Whether a key stands for the missing value of its level. -/
def isMissing : Key → Bool
  | subTitle number => number.isNone
  | content text | remark text => text.isNone
  | date bucket => bucket.isNone
  | _ => false

/-- Whether a key names a currency or a user, of which one is at home. -/
def isName : Key → Bool
  | currency _ | user _ => true
  | _ => false

end Subtotal.Key

namespace Presentation

variable (s : Presentation)

/-- Whether a key is a currency or a user other than the one at home. -/
def isAway : Key → Bool
  | .currency name => name ≠ s.homeCurrency
  | .user name => name ≠ s.homeUser
  | _ => false

/-- Compares the texts of keys by the collation. -/
def compareTexts (a b : Key) : Ordering := Key.compareOptions s.collation a.text? b.text?

instance [Std.TransCmp s.collation] : Std.TransCmp s.compareTexts where
  eq_swap {_ _} := @Std.OrientedCmp.eq_swap _ (Key.compareOptions s.collation) _ _ _
  isLE_trans {_ _ _} := @Std.TransCmp.isLE_trans _ (Key.compareOptions s.collation) _ _ _ _

theorem compareKeys_eq_lex :
    s.compareKeys = compareLex (compareOn Key.rank) (compareLex (compareOn s.isAway)
      (compareLex s.compareTexts (compareOn Key.number?))) := by
  funext a b
  -- between levels the ranks decide, and both sides compute
  cases a <;> cases b <;> try rfl
  case currency.currency a b =>
      exact congrArg (compare (decide (a ≠ s.homeCurrency)) (decide (b ≠ s.homeCurrency))).then
        (Ordering.then_eq (o := s.collation a b)).symm
  case user.user a b =>
      exact congrArg (compare (decide (a ≠ s.homeUser)) (decide (b ≠ s.homeUser))).then
        (Ordering.then_eq (o := s.collation a b)).symm
  case content.content a b =>
      exact (Ordering.then_eq (o := Key.compareOptions s.collation a b)).symm
  case remark.remark a b =>
      exact (Ordering.then_eq (o := Key.compareOptions s.collation a b)).symm
  case subTitle.subTitle a b => cases a <;> cases b <;> rfl
  case date.date a b => cases a <;> cases b <;> rfl

instance [Std.TransCmp s.collation] : Std.TransCmp s.compareKeys := by
  rw [compareKeys_eq_lex]
  infer_instance

instance [Std.TransCmp s.collation] [Std.LawfulEqCmp s.collation] :
    Std.LawfulEqCmp s.compareKeys where
  eq_of_compare {a b} h := by
    simp only [compareKeys_eq_lex, compareLex_eq_eq, compareOn] at h
    obtain ⟨hrank, _, htext, hnumber⟩ := h
    exact Key.eq_of_projections (Std.LawfulEqOrd.eq_of_compare hrank)
      (Std.LawfulEqCmp.eq_of_compare htext) (Std.LawfulEqOrd.eq_of_compare hnumber)

/-! ## Texts by code point -/

/-- Whether a name comes before another where the one at home is first. -/
def HomeFirst (home a b : String) : Prop := b ≠ home ∧ (a = home ∨ a < b)

/-- Whether a value comes before another where a missing one is first. -/
def MissingFirst {α : Type} (before : α → α → Prop) : Option α → Option α → Prop
  | none, some _ => True
  | some a, some b => before a b
  | _, none => False

/-- Whether a group comes before its sibling, with texts by code point. -/
def Precedes : Key → Key → Prop
  | .currency a, .currency b => HomeFirst s.homeCurrency a b
  | .title a, .title b => a.toInt < b.toInt
  | .subTitle a, .subTitle b => MissingFirst (fun m n => m.toInt < n.toInt) a b
  | .content a, .content b | .remark a, .remark b => MissingFirst (· < ·) a b
  | .user a, .user b => HomeFirst s.homeUser a b
  | .date a, .date b => MissingFirst (· < ·) a b
  | a, b => a.rank < b.rank

theorem compareOptions_eq_lt_iff {α : Type} {cmp : α → α → Ordering} {before : α → α → Prop}
    (h : ∀ a b, cmp a b = .lt ↔ before a b) (a b : Option α) :
    Key.compareOptions cmp a b = .lt ↔ MissingFirst before a b := by
  cases a <;> cases b
  case some.some a b => exact h a b
  all_goals simp [Key.compareOptions, MissingFirst]

theorem compare_string_eq_lt {a b : String} : compare a b = .lt ↔ a < b :=
  compareOfLessAndEq_eq_lt

theorem compareHomeFirst_eq_lt_iff {s : Presentation} (h : s.collation = compare)
    (home a b : String) : s.compareHomeFirst home a b = .lt ↔ HomeFirst home a b := by
  have hfirst : compare false true = .lt := rfl
  unfold compareHomeFirst HomeFirst
  rw [h, Ordering.then_eq_lt, compare_string_eq_lt]
  by_cases ha : a = home <;> by_cases hb : b = home <;> simp [ha, hb, hfirst]

theorem compareKeys_eq_lt_iff {s : Presentation} (h : s.collation = compare) (a b : Key) :
    s.compareKeys a b = .lt ↔ s.Precedes a b := by
  have htext : ∀ a b : String, s.collation a b = .lt ↔ a < b := by
    rw [h]
    exact fun _ _ => compare_string_eq_lt
  have hlevels : s.compareKeys a b = compare a.rank b.rank →
      (s.Precedes a b ↔ a.rank < b.rank) → (s.compareKeys a b = .lt ↔ s.Precedes a b) := by
    intro hcompare hprecedes
    rw [hcompare, hprecedes, Nat.compare_eq_lt]
  cases a <;> cases b
  case currency.currency a b => exact compareHomeFirst_eq_lt_iff h s.homeCurrency a b
  case title.title a b => exact Int.compare_eq_lt
  case subTitle.subTitle a b => exact compareOptions_eq_lt_iff (fun _ _ => Int.compare_eq_lt) a b
  case content.content a b => exact compareOptions_eq_lt_iff htext a b
  case remark.remark a b => exact compareOptions_eq_lt_iff htext a b
  case user.user a b => exact compareHomeFirst_eq_lt_iff h s.homeUser a b
  case date.date a b => exact compareOptions_eq_lt_iff (fun _ _ => Int.compare_eq_lt) a b
  -- keys of different levels are in the order of these
  all_goals exact hlevels rfl Iff.rfl

/-! ## Laws of the order -/

variable {s : Presentation}

theorem compareHomeFirst_home {home other : String} (h : other ≠ home) :
    s.compareHomeFirst home home other = .lt := by
  have hfirst : compare false true = .lt := rfl
  simp [compareHomeFirst, h, hfirst]

/-- The missing value of a level comes before all others of that level. -/
theorem compareKeys_of_isMissing {a b : Key} (hlevel : a.rank = b.rank) (ha : a.isMissing = true)
    (hb : b.isMissing = false) : s.compareKeys a b = .lt := by
  cases a <;> cases b <;> cases hlevel
  case subTitle.subTitle | content.content | remark.remark | date.date =>
      exact Key.compareOptions_of_isNone ha hb
  -- the other levels have no missing value
  all_goals cases ha

/-- With texts by code point, only names are taken out of their natural order. -/
theorem compareKeys_of_not_isName (h : s.collation = compare) {a : Key} (ha : a.isName = false)
    (b : Key) : s.compareKeys a b = compare a b := by
  cases a <;> cases b
  case currency.currency | user.user => cases ha
  case content.content a b | remark.remark a b =>
      show Key.compareOptions s.collation a b = Key.compareOptions compare a b
      rw [h]
  all_goals rfl

/-- The display order is a total preorder of all keys, whatever their levels, if the collation is
    one of texts: turned around, a comparison has the opposite result, and it is transitive. The
    currency and the user at home come before all others, and the missing value of a level before
    those that are there. With texts by code point only equal keys compare as equal, and all keys
    but the names of currencies and users are in their natural order. -/
theorem compareKeys_lawful (s : Presentation) :
    (Std.TransCmp s.collation → Std.TransCmp s.compareKeys) ∧
    (∀ other, other ≠ s.homeCurrency →
      s.compareKeys (.currency s.homeCurrency) (.currency other) = .lt) ∧
    (∀ other, other ≠ s.homeUser → s.compareKeys (.user s.homeUser) (.user other) = .lt) ∧
    (∀ a b : Key, a.rank = b.rank → a.isMissing = true → b.isMissing = false →
      s.compareKeys a b = .lt) ∧
    (s.collation = compare →
      (∀ a b, s.compareKeys a b = .eq ↔ a = b) ∧
      ∀ a b : Key, a.isName = false → s.compareKeys a b = compare a b) := by
  refine ⟨fun _ => inferInstance, fun _ => compareHomeFirst_home, fun _ => compareHomeFirst_home,
    fun _ _ => compareKeys_of_isMissing, fun hcollation => ⟨fun a b => ?_, fun a b ha => ?_⟩⟩
  · have htrans : Std.TransCmp s.collation := hcollation ▸ inferInstance
    have hequal : Std.LawfulEqCmp s.collation := hcollation ▸ inferInstance
    exact Std.LawfulEqCmp.compare_eq_iff_eq
  · exact compareKeys_of_not_isName hcollation ha b

/-- Settings under which texts stand from last to first. -/
def lastFirst : Presentation := ⟨"CNY", "b", fun x y => compare y x⟩

/-- The currency at home stays in front even where the others stand from last to first. -/
theorem compareKeys_lawful_lastFirst :
    Std.TransCmp lastFirst.collation ∧ Std.TransCmp lastFirst.compareKeys ∧
      lastFirst.compareKeys (.currency "CNY") (.currency "USD") = .lt ∧
      lastFirst.compareKeys (.currency "USD") (.currency "EUR") = .lt ∧
      lastFirst.compareKeys (.user "b") (.user "c") = .lt ∧
      lastFirst.compareKeys (.content none) (.content (some "z")) = .lt ∧
      (∀ a b, standard.compareKeys a b = .eq ↔ a = b) ∧
      standard.compareKeys (.content (some "a")) (.user "a") = .lt := by
  obtain ⟨htrans, hcurrency, huser, hmissing, -⟩ := compareKeys_lawful lastFirst
  obtain ⟨-, -, -, -, hlexical⟩ := compareKeys_lawful standard
  obtain ⟨hequal, hnatural⟩ := hlexical rfl
  have hcollation : Std.TransCmp lastFirst.collation :=
    @Std.TransCmp.opposite String compare inferInstance
  refine ⟨hcollation, htrans hcollation, hcurrency "USD" (by decide), ?_, huser "c" (by decide),
    hmissing _ _ rfl rfl rfl, hequal, hnatural _ _ rfl⟩
  decide

end Presentation

end Bookkeeping
