import SchemaGraph.Literal.Field

/-!
# Calendar dates

Dates of the Gregorian calendar, continued to all years (`SchemaGraph.Literal.Date`), and how
they are written: year, month and day with dashes between them. A year of more than four
digits needs a sign.
-/

namespace SchemaGraph.Literal

/-- Whether a year has 366 days. -/
def isLeapYear (year : Int) : Bool := year % 4 = 0 && (year % 100 ≠ 0 || year % 400 = 0)

/-- Number of days of a month. -/
def daysInMonth (year : Int) (month : Nat) : Nat :=
  if month = 2 then if isLeapYear year then 29 else 28
  else if month ∈ [4, 6, 9, 11] then 30
  else 31

/-- A day. -/
structure Date where
  year : Int
  month : Nat
  day : Nat
deriving DecidableEq

/-- Whether the numbers are those of a day, in a year that is kept track of. -/
def Date.isValid (d : Date) : Bool :=
  -262143 ≤ d.year && d.year ≤ 262142 && 1 ≤ d.month && d.month ≤ 12 && 1 ≤ d.day &&
    d.day ≤ daysInMonth d.year d.month

/-- The date of three numbers, if there is one. -/
def Date.of? (year : Int) (month day : Nat) : Option Date :=
  let d : Date := ⟨year, month, day⟩
  if d.isValid then some d else none

/-- A year, after any white space: a sign and digits, or up to four digits. -/
def readYear (cs : List Char) : Option (Int × List Char) :=
  match Text.trimStart cs with
  | '-' :: rest => (readDigits 1 rest.length rest).map fun (n, rest) => (-n, rest)
  | '+' :: rest => (readDigits 1 rest.length rest).map fun (n, rest) => (n, rest)
  | rest => (readDigits 1 4 rest).map fun (n, rest) => (n, rest)

/-- A date. -/
def readDate (cs : List Char) : Option (Date × List Char) := do
  let (year, rest) ← readYear cs
  let (month, rest) ← readShort (← readMark '-' rest)
  let (day, rest) ← readShort (← readMark '-' rest)
  return (← Date.of? year month day, rest)

/-- A date with all its digits: four for the year, two for month and day. -/
def readFullDate (cs : List Char) : Option (Date × List Char) := do
  let (year, rest) ← readDigits 4 4 cs
  let (month, rest) ← readDigits 2 2 (← readMark '-' rest)
  let (day, rest) ← readDigits 2 2 (← readMark '-' rest)
  return (← Date.of? year month day, rest)

/-- Whether a text is a date. -/
def isDate (cs : List Char) : Bool := (readDate cs).any fun (_, rest) => rest.isEmpty

example : isDate "2024-02-29".toList = true ∧ isDate "2023-02-29".toList = false := by decide

end SchemaGraph.Literal
