import Bookkeeping.Decimal.Basic
import Bookkeeping.Keyed
import Bookkeeping.Subtotal.Spec

set_option autoImplicit false

/-! # Named queries

The parts that a report is composed of. A named query is a grouped query, a list of named
queries, or a reference to an entry of a library, each with a name and a coefficient that weighs
everything below it. -/

namespace Bookkeeping

/-- A named, weighted part of a report. -/
inductive NamedQuery where
  | grouped (name : String) (coefficient : Decimal) (query : GroupedQuery)
  | composite (name : String) (coefficient : Decimal) (parts : List NamedQuery)
  | reference (name : String) (coefficient : Decimal) (target : String)

namespace NamedQuery

/-- The segment that the query adds to the path; an empty name adds none. -/
def name : NamedQuery → String
  | grouped name _ _ | composite name _ _ | reference name _ _ => name

/-- What everything below the query is multiplied by. -/
def coefficient : NamedQuery → Decimal
  | grouped _ c _ | composite _ c _ | reference _ c _ => c

/-- The query with another coefficient. -/
def withCoefficient (c : Decimal) : NamedQuery → NamedQuery
  | grouped name _ q => grouped name c q
  | composite name _ parts => composite name c parts
  | reference name _ target => reference name c target

end NamedQuery

/-! ## Libraries -/

/-- The named queries that references can name; no name stands for two. -/
structure Library where
  entries : Keyed NamedQuery.name

namespace Library

/-- The library without entries. -/
def empty : Library := ⟨.empty⟩

/-- The library with one more entry, in place of any entry of the same name. -/
def insert (library : Library) (q : NamedQuery) : Library :=
  ⟨library.entries.insert q⟩

/-- The library of a list of entries. -/
def ofList (queries : List NamedQuery) : Library :=
  ⟨.ofList queries⟩

/-- The entry of a name. -/
def get? (library : Library) (name : String) : Option NamedQuery :=
  library.entries.find? name

/-- How many entries have none of the given names. -/
def countOutside (library : Library) (names : List String) : Nat :=
  library.entries.items.countP fun q => !names.contains q.name

/-- Once the name of an entry is among those set aside, fewer entries are left. -/
theorem countOutside_cons_lt {library : Library} {name : String} {names : List String}
    {q : NamedQuery} (hget : library.get? name = some q) (hnot : names.contains name = false) :
    library.countOutside (name :: names) < library.countOutside names := by
  obtain ⟨hmem, hname⟩ := library.entries.find?_eq_some_iff.1 hget
  obtain ⟨before, after, hsplit⟩ := List.append_of_mem hmem
  have hmono : ∀ es : List NamedQuery,
      es.countP (fun q => !(name :: names).contains q.name)
        ≤ es.countP fun q => !names.contains q.name := by
    intro es
    apply List.countP_mono_left
    intro e _ he
    rw [List.contains_cons, Bool.not_or, Bool.and_eq_true] at he
    exact he.2
  have hin : (name :: names).contains q.name = true := by simp [hname]
  have hout : names.contains q.name = false := hname ▸ hnot
  have hb := hmono before
  have ha := hmono after
  simp only [countOutside, hsplit, List.countP_append, List.countP_cons, hin, hout, Bool.not_true,
    Bool.not_false, Bool.false_eq_true, ↓reduceIte]
  omega

end Library

end Bookkeeping
