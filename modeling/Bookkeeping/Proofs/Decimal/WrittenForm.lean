import Bookkeeping.Decimal.Text
import Bookkeeping.Proofs.Text.Digits

set_option autoImplicit false

/-! # Amounts are read back

The written form of an amount has all its digits, so it is read as they stand: they fit the
magnitude, there are no more than 28 decimals, and nothing is cut. What is read back is the amount
with the scale it had. Only the sign of a zero is lost. -/

namespace Bookkeeping.Decimal

open Bookkeeping.Text

/-! ## Digits are read onto a number -/

/-- A digit that fits is read. -/
theorem scan_digit {n s d : Nat} {point seen : Bool} {c : Char} (rest : List Char)
    (hd : digit? c = some d) (hfits : 10 * n + d < magnitudeBound)
    (hscale : point = true → s < maxScale) :
    Numeral.scan ⟨n, s⟩ point seen (c :: rest) =
      Numeral.scan ⟨10 * n + d, if point then s + 1 else 0⟩ point true rest := by
  have hroom : ¬ (point = true ∧ s = maxScale) :=
    fun ⟨hpoint, hfull⟩ => Nat.ne_of_lt (hscale hpoint) hfull
  rw [Numeral.scan, if_neg hroom, hd]
  dsimp only
  rw [Nat.mul_comm n, if_pos hfits]

/-- Digits before the point are read if the number they make up fits. -/
theorem scan_whole {ds : List Char} {n m : Nat} {seen : Bool} (rest : List Char)
    (hread : numberFrom n ds = some m) (hm : m < magnitudeBound) :
    Numeral.scan ⟨n, 0⟩ false seen (ds ++ rest) =
      Numeral.scan ⟨m, 0⟩ false (seen || !ds.isEmpty) rest := by
  induction ds generalizing n seen with
  | nil =>
      obtain rfl : n = m := Option.some.inj hread
      simp
  | cons c ds ih =>
      obtain ⟨d, hd, hds⟩ := Option.bind_eq_some_iff.1 hread
      have hfits : 10 * n + d < magnitudeBound := Nat.lt_of_le_of_lt (le_of_numberFrom hds) hm
      rw [List.cons_append, scan_digit _ hd hfits Bool.noConfusion, if_neg Bool.false_ne_true, ih hds]
      simp

/-- Digits behind the point are read if the number they make up fits and there are not too many
    of them. -/
theorem scan_decimals {ds : List Char} {n m s : Nat} (hread : numberFrom n ds = some m)
    (hm : m < magnitudeBound) (hs : s + ds.length ≤ maxScale) :
    Numeral.scan ⟨n, s⟩ true true ds = some ⟨m, s + ds.length⟩ := by
  induction ds generalizing n s with
  | nil =>
      obtain rfl : n = m := Option.some.inj hread
      rfl
  | cons c ds ih =>
      obtain ⟨d, hd, hds⟩ := Option.bind_eq_some_iff.1 hread
      have hfits : 10 * n + d < magnitudeBound := Nat.lt_of_le_of_lt (le_of_numberFrom hds) hm
      rw [List.length_cons] at hs ⊢
      have hroom : s < maxScale := by omega
      rw [scan_digit ds hd hfits fun _ => hroom, if_pos rfl, ih hds (by omega), Nat.add_assoc,
        Nat.add_comm 1]

theorem scan_point {r : Numeral} {seen : Bool} (rest : List Char) :
    r.scan false seen ('.' :: rest) = r.scan true seen rest := by
  rw [Numeral.scan, if_neg (fun h => nomatch h.1), if_pos rfl, if_neg Bool.false_ne_true]
  rfl

/-! ## Written amounts -/

/-- What is written of an amount behind its sign. -/
def unsignedChars (a : Decimal) : List Char :=
  digits (a.magnitude / tenPow a.scale) ++
    if a.scale = 0 then [] else '.' :: fixedDigits a.scale a.magnitude

theorem chars_eq (a : Decimal) :
    a.chars = (if a.negative then ['-'] else []) ++ a.unsignedChars :=
  List.append_assoc _ _ _

/-- The digits in front of the point and behind it are those of the magnitude. -/
theorem scan_unsignedChars (a : Decimal) :
    Numeral.scan ⟨0, 0⟩ false false a.unsignedChars = some ⟨a.magnitude, a.scale⟩ := by
  have hwhole : a.magnitude / tenPow a.scale < magnitudeBound :=
    Nat.lt_of_le_of_lt (Nat.div_le_self _ _) a.magnitude_lt
  have hseen : (digits (a.magnitude / tenPow a.scale)).isEmpty = false :=
    List.isEmpty_eq_false_iff.2 (digits_ne_nil _)
  rw [unsignedChars, scan_whole _ (numberFrom_digits _) hwhole, hseen]
  split
  · next hscale =>
      rw [hscale, tenPow_zero, Nat.div_one]
      rfl
  · have hdecimals : numberFrom (a.magnitude / tenPow a.scale) (fixedDigits a.scale a.magnitude) =
        some a.magnitude := by
      rw [numberFrom_fixedDigits]
      exact congrArg some (Nat.div_add_mod' a.magnitude (tenPow a.scale))
    have hlength : 0 + (fixedDigits a.scale a.magnitude).length ≤ maxScale := by
      rw [length_fixedDigits, Nat.zero_add]
      exact a.scale_le
    rw [scan_point, Bool.not_false, Bool.or_true, scan_decimals hdecimals a.magnitude_lt hlength,
      length_fixedDigits, Nat.zero_add]

/-- No sign stands in front of digits. -/
theorem splitSign_of_digit {c : Char} {rest : List Char} (h : digit? c ≠ none) :
    splitSign (c :: rest) = (false, c :: rest) := by
  obtain ⟨hminus, hplus⟩ := ne_sign_of_digit h
  simp [splitSign, hminus, hplus]

theorem splitSign_chars (a : Decimal) : splitSign a.chars = (a.negative, a.unsignedChars) := by
  rw [chars_eq]
  cases a.negative with
  | true => rfl
  | false =>
      show splitSign a.unsignedChars = _
      have hread := number_digits (a.magnitude / tenPow a.scale)
      obtain ⟨c, rest, hdigits⟩ :=
        List.exists_cons_of_ne_nil (digits_ne_nil (a.magnitude / tenPow a.scale))
      rw [hdigits] at hread
      rw [unsignedChars, hdigits]
      exact splitSign_of_digit (digit?_of_number hread c List.mem_cons_self)

/-- A written amount is read back with its scale; a zero comes back without a sign. -/
theorem ofText?_toText (a : Decimal) : ofText? a.toText = some a.dropZeroSign := by
  have hplain : ofPlain? a.toText.toList = some a.dropZeroSign := by
    rw [toText, String.toList_ofList, ofPlain?, splitSign_chars]
    dsimp only
    rw [scan_unsignedChars, Option.bind_some, ofSigned?_parts, Option.map_some]
  rw [ofText?, hplain]

end Bookkeeping.Decimal
