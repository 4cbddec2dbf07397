import SchemaGraph.Literal.Calendar

/-!
# Times of day and timestamps

Times of a day (`SchemaGraph.Literal.readTime`), which may be a leap second, and the ways to
write a date and a time together (`SchemaGraph.Literal.isTimestamp`): with all digits and an
offset from universal time, or without an offset and with a `T` or blanks in between.
-/

namespace SchemaGraph.Literal

/-- A time of day, without its fraction of a second. -/
structure Time where
  hour : Nat
  minute : Nat
  second : Nat
deriving DecidableEq

/-- The time of three numbers, if there is one. The second 60 is a leap second. -/
def Time.of? (hour minute second : Nat) : Option Time :=
  if hour < 24 && minute < 60 && second ≤ 60 then some ⟨hour, minute, second⟩ else none

/-- A time of day, with or without a fraction. -/
def readTime (cs : List Char) : Option (Time × List Char) := do
  let (hour, rest) ← readShort cs
  let (minute, rest) ← readShort (← readMark ':' rest)
  let (second, rest) ← readShort (← readMark ':' rest)
  return (← Time.of? hour minute second, ← readFraction rest)

/-- A time of day with two digits for each number, with or without a fraction. -/
def readFullTime (cs : List Char) : Option (Time × List Char) := do
  let (hour, rest) ← readDigits 2 2 cs
  let (minute, rest) ← readDigits 2 2 (← readMark ':' rest)
  let (second, rest) ← readDigits 2 2 (← readMark ':' rest)
  return (← Time.of? hour minute second, ← readFraction rest)

/-- Hours and minutes of an offset: less than a day. -/
def readOffsetTime (cs : List Char) : Option (List Char) := do
  let (hour, rest) ← readDigits 2 2 cs
  let (minute, rest) ← readDigits 2 2 (← readMark ':' rest)
  if hour < 24 && minute < 60 then some rest else none

/-- An offset from universal time: the letter of no offset, or a sign and a time. -/
def readOffset : List Char → Option (List Char)
  | [] => none
  | c :: rest =>
    if c = 'Z' || c = 'z' then some rest
    else if c = '+' || c = '-' || c = '\u2212' then readOffsetTime rest
    else none

/-- What stands between a date and a time with all their digits: a letter or a blank. -/
def readLetter : List Char → Option (List Char)
  | [] => none
  | c :: rest => if c = 'T' || c = 't' || c = ' ' then some rest else none

/-- A date and a time with all their digits and an offset. -/
def readInstant (cs : List Char) : Option (List Char) := do
  let (_, rest) ← readFullDate cs
  let (_, rest) ← readFullTime (← readLetter rest)
  readOffset rest

/-- A date and a time without an offset; `between` reads what stands between them. -/
def readLocal (between : List Char → Option (List Char)) (cs : List Char) :
    Option (List Char) := do
  let (_, rest) ← readDate cs
  let (_, rest) ← readTime (← between rest)
  return rest

/-- Whether a text is a time of day. -/
def isTime (cs : List Char) : Bool := (readTime cs).any fun (_, rest) => rest.isEmpty

/-- Whether a text is a date with a time. -/
def isTimestamp (cs : List Char) : Bool :=
  (readInstant cs).any List.isEmpty || (readLocal (readMark 'T') cs).any List.isEmpty ||
    (readLocal (fun rest => some (Text.trimStart rest)) cs).any List.isEmpty

example : isTimestamp "2024-01-01T10:00:00.5Z".toList = true ∧
    isTimestamp "2024-01-01 10:00:60".toList = true ∧
    isTimestamp "2024-01-01T10:00Z".toList = false := by decide

end SchemaGraph.Literal
