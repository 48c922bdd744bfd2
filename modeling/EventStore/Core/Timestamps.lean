import EventStore.Lib.Calendar
import EventStore.Lib.Decimal

/-!
Timestamps: the date and time of day of a Unix second, and the text they are written as.
-/
namespace EventStore
namespace Timestamps

open Calendar

/-- A value of an `i64`, and `none` where the arithmetic overflows. -/
def int64 (n : Int) : Option Int := if -2 ^ 63 ≤ n ∧ n < 2 ^ 63 then some n else none

/-- No operand of a division is negative but `z`, whose quotient is Euclidean. -/
def civilFromDays (days : Int) : Option Calendar.Date := do
  let z ← int64 (days + 719468)
  let era := z / 146097
  let dayOfEra := z % 146097
  let yearOfEra := (← int64 ((← int64 ((← int64 (dayOfEra - dayOfEra / 1460)) +
    dayOfEra / 36524)) - dayOfEra / 146096)) / 365
  let dayOfYear ← int64 (dayOfEra - (← int64 ((← int64 ((← int64 (365 * yearOfEra)) +
    yearOfEra / 4)) - yearOfEra / 100)))
  let monthIndex := (← int64 ((← int64 (5 * dayOfYear)) + 2)) / 153
  let day ← int64 ((← int64 (dayOfYear - (← int64 ((← int64 (153 * monthIndex)) + 2)) / 5)) + 1)
  let month ← int64 (if monthIndex < 10 then monthIndex + 3 else monthIndex - 9)
  let year ← int64 ((← int64 (yearOfEra + (← int64 (era * 400)))) + if month ≤ 2 then 1 else 0)
  return ⟨year, month % 2 ^ 32, day % 2 ^ 32⟩

/-- Zero-padded to a width that counts the sign. -/
def signed (width : Nat) (n : Int) : String :=
  if n < 0 then "-" ++ Decimal.padded (width - 1) n.natAbs else Decimal.padded width n.natAbs

def formatted (date : Date) (hour minute second : Int) : String :=
  signed 4 date.year ++ "-" ++ signed 2 date.month ++ "-" ++ signed 2 date.day ++ "T" ++
    signed 2 hour ++ ":" ++ signed 2 minute ++ ":" ++ signed 2 second ++ "Z"

def formatRfc3339 (unixSeconds : Int) : Option String := do
  let days := unixSeconds / 86400
  let secondsOfDay := unixSeconds % 86400
  let date ← civilFromDays days
  return formatted date (secondsOfDay / 3600) (secondsOfDay % 3600 / 60) (secondsOfDay % 60)

end Timestamps
end EventStore
