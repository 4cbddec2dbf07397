import SchemaGraph.Json.Number
import SchemaGraph.Text.Blank

/-!
# Fields of dates and times

The pieces that written dates and times are made of: digits of a given count
(`SchemaGraph.Literal.readDigits`), marks between them, and fractions of a second. A reader
takes the characters that are left and returns those after what it read.
-/

namespace SchemaGraph.Literal

/-- A number of `least` to `most` digits; further digits are left. -/
def readDigits (least most : Nat) (cs : List Char) : Option (Nat × List Char) :=
  let digits := (cs.take most).takeWhile Char.isDigit
  if digits.length < least then none
  else some (Decimal.naturalOf digits, cs.drop digits.length)

/-- One given character. -/
def readMark (mark : Char) : List Char → Option (List Char)
  | [] => none
  | c :: rest => if c = mark then some rest else none

/-- A number of one or two digits, after any white space. -/
def readShort (cs : List Char) : Option (Nat × List Char) := readDigits 1 2 (Text.trimStart cs)

/-- A fraction of a second, if the text goes on with a point: one digit or more. -/
def readFraction : List Char → Option (List Char)
  | '.' :: c :: rest => if c.isDigit then some (rest.dropWhile Char.isDigit) else none
  | '.' :: [] => none
  | rest => some rest

end SchemaGraph.Literal
