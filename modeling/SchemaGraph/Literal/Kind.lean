import SchemaGraph.Literal.Clock
import SchemaGraph.PrimitiveKind

/-!
# The kind of a string

The most specific primitive kind that one string literal fits
(`SchemaGraph.Literal.classify`). The formats are tried in a fixed order, because a text may
have several of them: `true` could be a label, and a short run of digits a date.
-/

namespace SchemaGraph.Literal

/-- Whether a text is an integer of at most 18 digits, perhaps with a minus sign. -/
def isInteger (cs : List Char) : Bool :=
  let digits := match cs with
    | '-' :: rest => rest
    | cs => cs
  !digits.isEmpty && digits.length ≤ 18 && digits.all Char.isDigit

/-- Whether a character is a hexadecimal digit. -/
def isHexDigit (c : Char) : Bool :=
  c.isDigit || ('a' ≤ c && c ≤ 'f') || ('A' ≤ c && c ≤ 'F')

/-- Whether a text is groups of hexadecimal digits with dashes between them. -/
def isHexGroups : List Nat → List Char → Bool
  | [], cs => cs.isEmpty
  | [n], cs => cs.length = n && cs.all isHexDigit
  | n :: more, cs =>
    (cs.take n).length = n && (cs.take n).all isHexDigit &&
      match cs.drop n with
      | '-' :: rest => isHexGroups more rest
      | _ => false

/-- Whether a text is a universally unique identifier. -/
def isUuid (cs : List Char) : Bool := isHexGroups [8, 4, 4, 4, 12] cs

/-- What a text starts with if it counts as a resource identifier. -/
def uriBeginnings : List String := ["http://", "https://", "mailto:", "tel:"]

/-- Whether a text starts like a resource identifier. -/
def isUri (cs : List Char) : Bool := uriBeginnings.any fun start => start.toList.isPrefixOf cs

/-- The most specific kind that a text fits. -/
def classify (s : String) : PrimitiveKind :=
  let cs := s.toList
  if s = "true" || s = "false" then .boolString
  else if isInteger cs then .integerString
  else if isUuid cs then .uuid
  else if isDate cs then .date
  else if isTime cs then .time
  else if isTimestamp cs then .dateTime
  else if isUri cs then .uri
  else .string

/-- The length up to which a text can be a label. -/
def maxLabelLength : Nat := 16

/-- Whether a character can be part of a label. -/
def isLabelChar (c : Char) : Bool := c.isAlphanum || c = ' ' || c = '-' || c = '_'

/-- Whether a text reads like a label: short, of letters, digits, blanks, dashes and
underscores of ASCII. -/
def isLabel (s : String) : Bool :=
  let cs := s.toList
  !cs.isEmpty && cs.length ≤ maxLabelLength && cs.all isLabelChar

end SchemaGraph.Literal
