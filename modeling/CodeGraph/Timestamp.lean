import CodeGraph.Text.Basic

namespace CodeGraph

/-!
# Points in time

A point in time is a number of nanoseconds since the beginning of 1970, in Universal Time.
-/

namespace Timestamp

def perSecond : Nat := 1000000000

/-- Days from the first of March of year 0 to the beginning of 1970. -/
def epochDay : Nat := 719468

/-- Days in 400 years, after which the calendar repeats itself. -/
def daysPerEra : Nat := 146097

/-- Year, month and day of a day that is counted from the first of March of year 0. Years begin in
March here, so that a leap day is the last one of its year. -/
def civil (day : Nat) : Nat × Nat × Nat :=
  let inEra := day % daysPerEra
  let yearOfEra := (inEra - inEra / 1460 + inEra / 36524 - inEra / 146096) / 365
  let inYear := inEra - (365 * yearOfEra + yearOfEra / 4 - yearOfEra / 100)
  let monthFromMarch := (5 * inYear + 2) / 153
  let inMonth := inYear - (153 * monthFromMarch + 2) / 5 + 1
  let month := if monthFromMarch < 10 then monthFromMarch + 3 else monthFromMarch - 9
  let year := yearOfEra + 400 * (day / daysPerEra)
  (if month ≤ 2 then year + 1 else year, month, inMonth)

def padded (width n : Nat) : String :=
  let digits := toString n
  .ofList (List.replicate (width - digits.length) '0') ++ digits

/-- The fraction of a second in thousandths, millionths or billionths, the first that is exact. -/
def fraction (nanoseconds : Nat) : String :=
  if nanoseconds = 0 then ""
  else if nanoseconds % 1000000 = 0 then "." ++ padded 3 (nanoseconds / 1000000)
  else if nanoseconds % 1000 = 0 then "." ++ padded 6 (nanoseconds / 1000)
  else "." ++ padded 9 nanoseconds

/-- Date and time as `2000-02-29T00:00:01+00:00`. Years of more than four digits have a sign. -/
def text (time : Nat) : String :=
  let seconds := time / perSecond
  let (year, month, day) := civil (seconds / 86400 + epochDay)
  let inDay := seconds % 86400
  (if year < 10000 then padded 4 year else "+" ++ toString year) ++ "-" ++ padded 2 month ++ "-" ++
    padded 2 day ++ "T" ++ padded 2 (inDay / 3600) ++ ":" ++ padded 2 (inDay / 60 % 60) ++ ":" ++
    padded 2 (inDay % 60) ++ fraction (time % perSecond) ++ "+00:00"

end Timestamp

end CodeGraph
