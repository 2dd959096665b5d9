import Bookkeeping.Calendar.Date
import Bookkeeping.Text

set_option autoImplicit false

/-! # Written dates

A date is written as year, month and day with hyphens between them, the month and the day with
two digits. Years from 0 to 9999 have four digits and no sign; all others are signed and have at
least four digits.

When a date is read, zeros in front may be missing and blanks may stand before each part, before
each hyphen and at the end. Month and day have at most two digits, and a year has more than four
only after a sign. -/

namespace Bookkeeping.Date

open Bookkeeping.Text

/-! ## Writing -/

/-- The characters of a year. -/
def yearChars (year : Int) : List Char :=
  if 0 ≤ year ∧ year ≤ 9999 then paddedDigits 4 year.natAbs
  else (if year < 0 then '-' else '+') :: paddedDigits 4 year.natAbs

/-- The characters of a date, as it is written in full. -/
def chars (d : Date) : List Char :=
  yearChars d.year ++ '-' :: fixedDigits 2 d.month ++ '-' :: fixedDigits 2 d.day

/-- The written form of a date. -/
def toText (d : Date) : String :=
  String.ofList d.chars

/-! ## Reading -/

/-- Reads a run of one to `most` digits, with blanks in front; the rest follows. -/
def readDigits (most : Nat) (cs : List Char) : Option (Nat × List Char) :=
  let run := (cs.take most).takeWhile fun c => (digit? c).isSome
  (number run).map fun n => (n, cs.drop run.length)

/-- Reads a year: four digits at most, or any number of digits after a sign. -/
def readYear (cs : List Char) : Option (Int × List Char) :=
  match skipBlanks cs with
  | '-' :: rest => (readDigits rest.length rest).map fun (n, rest) => (-(n : Int), rest)
  | '+' :: rest => (readDigits rest.length rest).map fun (n, rest) => ((n : Int), rest)
  | rest => (readDigits 4 rest).map fun (n, rest) => ((n : Int), rest)

/-- Reads a hyphen and the month or day behind it. -/
def readPart (cs : List Char) : Option (Nat × List Char) :=
  match skipBlanks cs with
  | '-' :: rest => readDigits 2 (skipBlanks rest)
  | _ => none

/-- Reads a date. -/
def ofChars? (cs : List Char) : Option Date :=
  (readYear cs).bind fun (year, rest) =>
    (readPart rest).bind fun (month, rest) =>
      (readPart rest).bind fun (day, rest) =>
        if skipBlanks rest = [] then ofParts? year month day else none

/-- Reads a date. -/
def ofText? (s : String) : Option Date :=
  ofChars? s.toList

end Bookkeeping.Date
