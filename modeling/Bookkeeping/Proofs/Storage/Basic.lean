import Bookkeeping.Proofs.Calendar.WrittenForm
import Bookkeeping.Proofs.Decimal.WrittenForm
import Bookkeeping.Storage.Basic

set_option autoImplicit false

/-! # Stored values are read back

Reading the stored form of a value gives the value back. Where amounts are part of it they come
back with their scales, but a zero without its sign, so `Kept` says what a value is read back as.

A member of a record is found by its name among those that are written. One that is not written
has no value, and that is what a reader takes it for. This module has the rules of members, and the
values that all records are made of. -/

namespace Bookkeeping

open Json (Members)
open Json.Members (ofOption)

/-- Values that are read back from their stored form as `kept` says. The form is never null, which
    is kept for missing values. -/
class Kept (α : Type) [Stored α] (kept : outParam (α → α)) : Prop where
  ofJson?_toJson (a : α) : ofJson? (toJson a) = some (kept a)
  toJson_ne_null (a : α) : toJson a ≠ .null

attribute [simp] Kept.ofJson?_toJson

section

variable {α : Type} [Stored α] {kept : α → α} [Kept α kept]

theorem ofJson?_of_ne_null {j : Json} (h : j ≠ .null) :
    (ofJson? j : Option (Option α)) = (ofJson? j).map some := by
  cases j with
  | null => exact absurd rfl h
  | bool | int | real | text | array | object => rfl

@[simp] theorem ofJson?_option (value : Option α) :
    ofJson? (toJson value) = some (value.map kept) := by
  cases value with
  | none => rfl
  | some a =>
      show ofJson? (toJson a) = _
      rw [ofJson?_of_ne_null (Kept.toJson_ne_null a), Kept.ofJson?_toJson, Option.map_some,
        Option.map_some]

instance : Kept (List α) (List.map kept) where
  ofJson?_toJson as := by
    show (as.map toJson).mapM ofJson? = _
    induction as with
    | nil => rfl
    | cons a as ih =>
        rw [List.map_cons, List.mapM_cons, Kept.ofJson?_toJson, ih]
        rfl
  toJson_ne_null _ := nofun

end

/-! ## Members -/

@[simp] theorem Json.record?_object (names : List String) (members : Members) :
    (Json.object members).record? names = some members := rfl

namespace Json.Members

variable {α : Type} [Stored α] {kept : α → α} [Kept α kept]

attribute [simp] get?_cons

@[simp] theorem get?_append (front back : Members) (name : String) :
    get? (front ++ back) name = (get? front name).or (get? back name) := by
  rw [get?, List.find?_append, Option.map_or]
  rfl

@[simp] theorem get?_ofOption (name other : String) (value : Option α) :
    get? (ofOption name value) other = if name = other then value.map toJson else none := by
  cases value with
  | none => simp [ofOption]
  | some a => simp [ofOption, get?_cons]

/-- Reads the value of a member, where one that is missing is taken for `missing`. -/
def read? (missing : Option α) : Option Json → Option α
  | some j => ofJson? j
  | none => missing

@[simp] theorem field_eq (members : Members) (name : String) :
    members.field name = read? (none : Option α) (members.get? name) := by
  unfold field
  cases members.get? name <;> rfl

@[simp] theorem fieldD_eq (members : Members) (name : String) (default : α) :
    members.fieldD name default = read? (some default) (members.get? name) := by
  unfold fieldD
  cases members.get? name <;> rfl

@[simp] theorem field?_eq (members : Members) (name : String) :
    members.field? name = read? (some (none : Option α)) (members.get? name) :=
  fieldD_eq members name none

@[simp] theorem read?_toJson (missing : Option α) (a : α) :
    read? missing (some (toJson a)) = some (kept a) :=
  Kept.ofJson?_toJson a

@[simp] theorem read?_toJson_option (missing : Option (Option α)) (value : Option α) :
    read? missing (some (toJson value)) = some (value.map kept) :=
  ofJson?_option value

@[simp] theorem read?_text (missing : Option String) (s : String) :
    read? missing (some (.text s)) = some s := rfl

/-- A missing value is read from a member that is left out. -/
@[simp] theorem read?_map_toJson (value : Option α) :
    read? (some none) (value.map toJson) = some (value.map kept) := by
  cases value with
  | none => rfl
  | some a => exact ofJson?_option (some a)

end Json.Members

/-! ## Plain values -/

instance : Kept String id where
  ofJson?_toJson _ := rfl
  toJson_ne_null _ := nofun

instance : Kept Bool id where
  ofJson?_toJson _ := rfl
  toJson_ne_null _ := nofun

instance : Kept Int32 id where
  ofJson?_toJson i := by
    show (if Int32.minValue.toInt ≤ i.toInt ∧ i.toInt ≤ Int32.maxValue.toInt then
      some (Int32.ofInt i.toInt) else none) = some i
    rw [if_pos ⟨i.minValue_le_toInt, i.toInt_le⟩, Int32.ofInt_toInt]
  toJson_ne_null _ := nofun

instance : Kept UInt64 id where
  ofJson?_toJson n := by
    have hsize : 0 ≤ (n.toNat : Int) ∧ (n.toNat : Int) < UInt64.size :=
      ⟨Int.natCast_nonneg _, Int.ofNat_lt.2 n.toNat_lt⟩
    show (if 0 ≤ (n.toNat : Int) ∧ (n.toNat : Int) < UInt64.size then
      some (UInt64.ofNat (n.toNat : Int).toNat) else none) = some n
    rw [if_pos hsize, Int.toNat_natCast, UInt64.ofNat_toNat]
  toJson_ne_null _ := nofun

instance : Kept Decimal Decimal.dropZeroSign where
  ofJson?_toJson := Decimal.ofText?_toText
  toJson_ne_null _ := nofun

instance : Kept Date id where
  ofJson?_toJson := Date.ofText?_toText
  toJson_ne_null _ := nofun

/-! ## Choices -/

/-- A choice is read back from its name if no other one has that name. -/
theorem choice?_name {α : Type} {all : List α} {name : α → String} (hname : (all.map name).Nodup)
    {a : α} (ha : a ∈ all) : choice? all name (.text (name a)) = some a := by
  show all.find? (fun b => name b = name a) = some a
  induction all with
  | nil => cases ha
  | cons b rest ih =>
      rw [List.map_cons, List.nodup_cons] at hname
      rcases List.mem_cons.1 ha with rfl | hrest
      · rw [List.find?_cons_of_pos (by simp)]
      · have hne : name b ≠ name a := fun h => hname.1 (h ▸ List.mem_map_of_mem hrest)
        rw [List.find?_cons_of_neg (by simpa using hne), ih hname.2 hrest]

instance : Kept Granularity id where
  ofJson?_toJson g := choice?_name (by decide) (by cases g <;> decide)
  toJson_ne_null _ := nofun

/-! ## Ranges -/

instance : Kept DateRange id where
  ofJson?_toJson r := by
    unfold instStoredDateRange
    simp
  toJson_ne_null _ := nofun

end Bookkeeping
