import Unproxy.Text.Basic

/-!
# Unproxy.Log.Time

The time as the log file shows it, from the seconds since the start of 1970.
-/

namespace Unproxy.Log

/-- The days of a year. -/
def yearLength (year : Nat) : Nat :=
  if year % 4 = 0 && (year % 100 ≠ 0 || year % 400 = 0) then 366 else 365

/-- The days of the months of a year. -/
def monthLengths (year : Nat) : List Nat :=
  [31, yearLength year - 337, 31, 30, 31, 30, 31, 31, 30, 31, 30, 31]

/-- The year a day falls in and its place there, both from the start of a given year
on. The first argument bounds the years. -/
def yearOf : Nat → Nat → Nat → Nat × Nat
  | 0, year, day => (year, day)
  | bound + 1, year, day =>
    if day < yearLength year then (year, day) else yearOf bound (year + 1) (day - yearLength year)

/-- The month a day of the year falls in and its place there, both counted from 1
for the first month of the list. -/
def monthOf : List Nat → Nat → Nat × Nat
  | [], day => (1, day + 1)
  | length :: lengths, day =>
    if day < length then (1, day + 1)
    else
      let (month, place) := monthOf lengths (day - length)
      (month + 1, place)

/-- A number in at least the given number of digits. -/
def digits (width n : Nat) : Text :=
  let t := Text.ofNat n
  List.replicate (width - t.length) (CodePoint.ofChar '0') ++ t

/-- The date and the time of day, to the second. -/
def timeText (seconds : Nat) : Text :=
  let (year, day) := yearOf (seconds / 86400) 1970 (seconds / 86400)
  let (month, place) := monthOf (monthLengths year) day
  let clock := seconds % 86400
  Text.join "-".toText [digits 4 year, digits 2 month, digits 2 place] ++ " ".toText ++
    Text.join ":".toText [digits 2 (clock / 3600), digits 2 (clock / 60 % 60), digits 2 (clock % 60)]

end Unproxy.Log
