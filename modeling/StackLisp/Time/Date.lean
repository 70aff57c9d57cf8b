import StackLisp.Text.Bytes

/-! Dates of the Gregorian calendar and the text of points in time. -/
namespace StackLisp

open Text (lit decimal)

structure Date where
  year : Int
  month : Nat
  day : Nat
deriving DecidableEq, Repr

namespace Date

/-- The date a number of days after the first of January 1970. Years are counted from March here, so
that a leap day is the last of its year; 400 years have 146097 days. -/
def ofDays (days : Int) : Date :=
  let shifted := days + 719468
  let era := shifted / 146097
  let inEra := (shifted % 146097).toNat
  let yearInEra := (inEra - inEra / 1460 + inEra / 36524 - inEra / 146096) / 365
  let inYear := inEra - (365 * yearInEra + yearInEra / 4 - yearInEra / 100)
  let m := (5 * inYear + 2) / 153
  let day := inYear - (153 * m + 2) / 5 + 1
  let month := if m < 10 then m + 3 else m - 9
  let year := era * 400 + (yearInEra : Int) + if month ≤ 2 then 1 else 0
  { year, month, day }

end Date

/-- Digits with zeros in front up to a width. -/
def padded (width n : Nat) : Bytes :=
  let digits := decimal n
  Text.repeated (width - digits.length) 48 ++ digits

/-- The text of a time given in seconds since 1970, as in `2000-01-01T00:00:00Z`. -/
def timeText (seconds : Int) : Bytes :=
  let d := Date.ofDays (seconds / 86400)
  let s := (seconds % 86400).toNat
  padded 4 d.year.toNat ++ lit "-" ++ padded 2 d.month ++ lit "-" ++ padded 2 d.day ++ lit "T"
    ++ padded 2 (s / 3600) ++ lit ":" ++ padded 2 (s / 60 % 60) ++ lit ":" ++ padded 2 (s % 60)
    ++ lit "Z"

end StackLisp
