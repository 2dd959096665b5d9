import Bookkeeping.Proofs.Calendar.Labels

set_option autoImplicit false

/-! # Dates are read back

A written year ends where its width does, or at the hyphen behind it if it has a sign. Month and
day have a width of two. So every date of the calendar is read back from its written form. -/

namespace Bookkeeping.Text

/-! ## Digits among other characters -/

theorem isBlank_of_digit {c : Char} (h : digit? c ≠ none) : isBlank c = false := by
  have hrange : '0' ≤ c ∧ c ≤ '9' := Decidable.byContradiction fun hrange => h (if_neg hrange)
  have hlow : 48 ≤ c.toNat := hrange.1
  have hhigh : c.toNat ≤ 57 := hrange.2
  simp only [isBlank, blankIntervals, List.any_cons, List.any_nil, Bool.or_false,
    Bool.or_eq_false_iff, Bool.and_eq_false_iff, decide_eq_false_iff_not]
  omega

theorem skipBlanks_cons {c : Char} (h : isBlank c = false) (rest : List Char) :
    skipBlanks (c :: rest) = c :: rest := by
  rw [skipBlanks, List.dropWhile_cons, if_neg (Bool.eq_false_iff.1 h)]

/-- Digits are not skipped. -/
theorem skipBlanks_append {cs : List Char} {n : Nat} (h : number cs = some n) (rest : List Char) :
    skipBlanks (cs ++ rest) = cs ++ rest := by
  cases cs with
  | nil => cases h
  | cons c cs => exact skipBlanks_cons (isBlank_of_digit (digit?_of_number h c List.mem_cons_self)) _

end Bookkeeping.Text

namespace Bookkeeping.Date

open Bookkeeping.Text

/-- A run of digits is read whole if it is as long as it may be, or no digit follows it. -/
theorem readDigits_append {most n : Nat} {ds rest : List Char} (hread : number ds = some n)
    (hlength : ds.length ≤ most)
    (hstop : ds.length = most ∨ ∀ c ∈ rest.head?, digit? c = none) :
    readDigits most (ds ++ rest) = some (n, rest) := by
  have hend : (rest.take (most - ds.length)).takeWhile (fun c => (digit? c).isSome) = [] := by
    rcases hstop with hfull | hother
    · rw [hfull, Nat.sub_self, List.take_zero, List.takeWhile_nil]
    · cases rest with
      | nil => rw [List.take_nil, List.takeWhile_nil]
      | cons c rest =>
          have hc : digit? c = none := hother c rfl
          cases most - ds.length with
          | zero => rfl
          | succ k => rw [List.take_succ_cons, List.takeWhile_cons, hc]; rfl
  have hrun : ((ds ++ rest).take most).takeWhile (fun c => (digit? c).isSome) = ds := by
    rw [List.take_append, List.take_of_length_le hlength, List.takeWhile_append_of_pos, hend,
      List.append_nil]
    intro c hc
    exact Option.isSome_iff_ne_none.2 (digit?_of_number hread c hc)
  rw [readDigits, hrun, hread, Option.map_some, List.drop_left]

/-- A hyphen and the month or day behind it. -/
theorem readPart_append {n : Nat} (h : n < 10 ^ 2) (rest : List Char) :
    readPart ('-' :: (fixedDigits 2 n ++ rest)) = some (n, rest) := by
  have hread := number_fixedDigits (by decide) h
  have hlength := length_fixedDigits 2 n
  rw [readPart, skipBlanks_cons (by decide)]
  show readDigits 2 (skipBlanks (fixedDigits 2 n ++ rest)) = _
  rw [skipBlanks_append hread, readDigits_append hread (Nat.le_of_eq hlength) (.inl hlength)]

/-- A year that starts with a digit has no sign. -/
theorem readYear_of_digit {c : Char} {rest : List Char} (h : digit? c ≠ none) :
    readYear (c :: rest) = (readDigits 4 (c :: rest)).map fun (n, rest) => ((n : Int), rest) := by
  obtain ⟨hminus, hplus⟩ := ne_sign_of_digit h
  rw [readYear, skipBlanks_cons (isBlank_of_digit h)]
  simp [hminus, hplus]

theorem readYear_minus (rest : List Char) :
    readYear ('-' :: rest) =
      (readDigits rest.length rest).map fun (n, rest) => (-(n : Int), rest) := by
  rw [readYear, skipBlanks_cons (by decide)]
  rfl

theorem readYear_plus (rest : List Char) :
    readYear ('+' :: rest) =
      (readDigits rest.length rest).map fun (n, rest) => ((n : Int), rest) := by
  rw [readYear, skipBlanks_cons (by decide)]
  rfl

/-- A written year is read up to the hyphen behind it. -/
theorem readYear_append (year : Int) (rest : List Char) :
    readYear (yearChars year ++ '-' :: rest) = some (year, '-' :: rest) := by
  have hread := number_paddedDigits 4 year.natAbs
  unfold yearChars
  split
  · next hrange =>
      have hlength : (paddedDigits 4 year.natAbs).length = 4 :=
        length_paddedDigits (by decide) (by omega)
      have hwhole : readDigits 4 (paddedDigits 4 year.natAbs ++ '-' :: rest) =
          some (year.natAbs, '-' :: rest) :=
        readDigits_append hread (Nat.le_of_eq hlength) (.inl hlength)
      have hyear : (year.natAbs : Int) = year := Int.natAbs_of_nonneg hrange.1
      obtain ⟨c, ds, hdigits⟩ := List.exists_cons_of_ne_nil (paddedDigits_ne_nil 4 year.natAbs)
      rw [hdigits] at hread hwhole
      rw [hdigits, List.cons_append, readYear_of_digit (digit?_of_number hread c List.mem_cons_self),
        ← List.cons_append, hwhole]
      exact congrArg (fun y => some (y, '-' :: rest)) hyear
  · next hrange =>
      have hhyphen : ∀ c ∈ ('-' :: rest).head?, digit? c = none := by
        rintro c ⟨⟩
        decide
      have hwhole := readDigits_append hread (List.prefix_append _ ('-' :: rest)).length_le
        (.inr hhyphen)
      rw [List.cons_append]
      by_cases hneg : year < 0
      · have hyear : -(year.natAbs : Int) = year := by omega
        rw [if_pos hneg, readYear_minus, hwhole]
        exact congrArg (fun y => some (y, '-' :: rest)) hyear
      · have hyear : (year.natAbs : Int) = year := by omega
        rw [if_neg hneg, readYear_plus, hwhole]
        exact congrArg (fun y => some (y, '-' :: rest)) hyear

/-- A written date is read back. -/
theorem ofText?_toText (d : Date) : ofText? d.toText = some d := by
  have hparts : ofParts? d.year d.month d.day = some d := dif_pos d.valid
  have hday : readPart ('-' :: fixedDigits 2 d.day) = some (d.day, []) := by
    simpa using readPart_append (Granularity.day_lt d) []
  rw [ofText?, toText, String.toList_ofList, chars, List.append_assoc, List.cons_append, ofChars?,
    readYear_append, Option.bind_some]
  dsimp only
  rw [readPart_append (Granularity.month_lt d), Option.bind_some]
  dsimp only
  rw [hday, Option.bind_some]
  exact (if_pos rfl).trans hparts

end Bookkeeping.Date
