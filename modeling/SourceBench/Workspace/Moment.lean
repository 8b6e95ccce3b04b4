/-!
# Moments

A moment is a number of microseconds since the beginning of 1970, written as a date with a time of day.
-/
namespace SourceBench

structure Moment where
  micros : Nat
deriving DecidableEq, Repr

structure Day where
  year : Nat
  month : Nat
  day : Nat
deriving DecidableEq, Repr

/-- The day that is a number of days after the first of 1970.  Years are counted from March on, so that a leap day is
the last of its year, in eras of 400 years. -/
def Day.ofNumber (n : Nat) : Day :=
  let z := n + 719468
  let era := z / 146097
  let ofEra := z % 146097
  let yearOfEra := (ofEra - ofEra / 1460 + ofEra / 36524 - ofEra / 146096) / 365
  let ofYear := ofEra - (365 * yearOfEra + yearOfEra / 4 - yearOfEra / 100)
  let monthFromMarch := (5 * ofYear + 2) / 153
  let day := ofYear - (153 * monthFromMarch + 2) / 5 + 1
  let month := if monthFromMarch < 10 then monthFromMarch + 3 else monthFromMarch - 9
  ⟨yearOfEra + era * 400 + (if month ≤ 2 then 1 else 0), month, day⟩

namespace Moment

def digits (width n : Nat) : String :=
  let ds := Nat.toDigits 10 n
  String.ofList (List.replicate (width - ds.length) '0' ++ ds)

def seconds (m : Moment) : Nat := m.micros / 1000000

def day (m : Moment) : Day := .ofNumber (m.seconds / 86400)

def clock (m : Moment) : Nat × Nat × Nat := (m.seconds / 3600 % 24, m.seconds / 60 % 60, m.seconds % 60)

def word (m : Moment) : String :=
  let (h, i, s) := m.clock
  digits 4 m.day.year ++ digits 2 m.day.month ++ digits 2 m.day.day ++ "_" ++ digits 2 h ++ digits 2 i ++ digits 2 s

def fraction (m : Moment) : String :=
  if m.micros % 1000000 = 0 then "" else "." ++ digits 6 (m.micros % 1000000)

/-- The moment with hyphens, colons and a `T` between date and time, and with the part of a second if there is one. -/
def text (m : Moment) : String :=
  let (h, i, s) := m.clock
  digits 4 m.day.year ++ "-" ++ digits 2 m.day.month ++ "-" ++ digits 2 m.day.day ++ "T" ++ digits 2 h ++ ":"
    ++ digits 2 i ++ ":" ++ digits 2 s ++ m.fraction

end Moment

/-- A clock goes on by some microseconds each time it is read. -/
structure Clock where
  now : Moment
  pace : Nat := 1000000
deriving DecidableEq, Repr

def Clock.next (c : Clock) : Clock := { c with now := ⟨c.now.micros + c.pace⟩ }

end SourceBench
