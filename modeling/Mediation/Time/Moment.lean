import Mediation.Text.Decimal

/-! # Moments

A moment counts the milliseconds since the beginning of 1970 in UTC. Its day and
its time of day are those of the Gregorian calendar, in all years.
-/

namespace Mediation

/-- Milliseconds since the beginning of 1970 in UTC. -/
abbrev Moment := Int

structure Date where
  year : Int
  month : Nat
  day : Nat
  deriving DecidableEq, Repr

namespace Date

/-- The date of a number of days since the beginning of 1970. Years are counted from the
first of March, and in cycles of 400 years of 146097 days. -/
def ofDay (day : Int) : Date :=
  let shifted := day + 719468
  let cycle := shifted / 146097
  let inCycle := (shifted % 146097).toNat
  let yearOfCycle := (inCycle - inCycle / 1460 + inCycle / 36524 - inCycle / 146096) / 365
  let dayOfYear := inCycle - (365 * yearOfCycle + yearOfCycle / 4 - yearOfCycle / 100)
  let monthFromMarch := (5 * dayOfYear + 2) / 153
  let dayOfMonth := dayOfYear - (153 * monthFromMarch + 2) / 5 + 1
  let month := if monthFromMarch < 10 then monthFromMarch + 3 else monthFromMarch - 9
  let year := cycle * 400 + yearOfCycle + (if month ≤ 2 then 1 else 0)
  ⟨year, month, dayOfMonth⟩

/-- Four digits, or a sign and at least four digits for years beyond them. -/
def yearText (year : Int) : Text :=
  if 0 ≤ year && year ≤ 9999 then Text.padded 4 year.toNat
  else (if year < 0 then '-' else '+') :: Text.padded 4 year.natAbs

def text (d : Date) : Text := yearText d.year ++ Text.padded 2 d.month ++ Text.padded 2 d.day

end Date

namespace Moment

def dayLength : Int := 86400000

/-- The number of the day of a moment, counted from the beginning of 1970. -/
def day (m : Moment) : Int := m / dayLength

def date (m : Moment) : Date := .ofDay (day m)

def secondOfDay (m : Moment) : Nat := (m % dayLength).toNat / 1000

def clockText (m : Moment) : Text :=
  let s := secondOfDay m
  Text.padded 2 (s / 3600) ++ Text.padded 2 (s / 60 % 60) ++ Text.padded 2 (s % 60)

/-- The form in which builds are stamped: `yyyyMMdd.HHmmss`. -/
def buildStamp (m : Moment) : Text := (date m).text ++ '.' :: clockText m

/-- The form in which updates are stamped: `yyyyMMddHHmmss`. -/
def updateStamp (m : Moment) : Text := (date m).text ++ clockText m

end Moment

end Mediation
