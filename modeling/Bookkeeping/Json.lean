import Bookkeeping.Decimal.Double

set_option autoImplicit false

/-! # JSON values

JSON values as trees. Whole numbers are kept exactly, all other numbers as doubles. The members
of an object stand in the order they were put in, and no name stands twice: putting a member in
replaces one of the same name. -/

namespace Bookkeeping

/-- A JSON value. -/
inductive Json where
  | null
  | bool (value : Bool)
  | int (value : Int)
  | real (value : Double)
  | text (value : String)
  | array (items : List Json)
  | object (members : List (String × Json))

namespace Json

instance : Inhabited Json := ⟨null⟩

/-- The members of an object. -/
abbrev Members : Type := List (String × Json)

namespace Members

/-- The value of a member. -/
def get? (members : Members) (name : String) : Option Json :=
  (members.find? (·.1 = name)).map (·.2)

/-- The members with one put in; it takes the place of one of the same name. -/
def put (members : Members) (name : String) (value : Json) : Members :=
  match members with
  | [] => [(name, value)]
  | (n, v) :: rest => if n = name then (n, value) :: rest else (n, v) :: put rest name value

/-- Members put in one after another. -/
def ofList (entries : List (String × Json)) : Members :=
  entries.foldl (fun members (name, value) => put members name value) []

theorem mem_of_get? {members : Members} {name : String} {value : Json}
    (h : get? members name = some value) : (name, value) ∈ members := by
  simp only [get?, Option.map_eq_some_iff] at h
  obtain ⟨⟨n, v⟩, hfind, rfl⟩ := h
  have hn : n = name := by simpa using List.find?_some hfind
  exact hn ▸ List.mem_of_find?_eq_some hfind

/-- A member is smaller than the object it belongs to. -/
theorem sizeOf_get?_lt {members : Members} {name : String} {value : Json}
    (h : get? members name = some value) : sizeOf value < sizeOf members := by
  have hmem := List.sizeOf_lt_of_mem (mem_of_get? h)
  simp only [Prod.mk.sizeOf_spec] at hmem
  omega

@[simp] theorem get?_nil (name : String) : get? [] name = none := rfl

theorem get?_cons (n : String) (v : Json) (rest : Members) (name : String) :
    get? ((n, v) :: rest) name = if n = name then some v else get? rest name := by
  by_cases h : n = name <;> simp [get?, h]

end Members

/-- The members of a value that is an object. -/
def members? : Json → Option Members
  | object members => some members
  | _ => none

/-- Whether a value is an object. -/
def isObject : Json → Bool
  | object _ => true
  | _ => false

/-- The items of a value that is an array. -/
def items? : Json → Option (List Json)
  | array items => some items
  | _ => none

end Json

end Bookkeeping
