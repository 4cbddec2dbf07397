import SchemaGraph.Json.Basic

/-!
# Writing JSON

The text of a JSON value on indented lines (`SchemaGraph.Json.pretty`): two blanks for each
level, every item and member on a line of its own, and no line for an empty array or object.
-/

namespace SchemaGraph.Json

/-- A digit of a number in base sixteen, in lower case. -/
def hexDigit (n : Nat) : Char := Nat.digitChar (n % 16)

/-- How one character stands in a string. -/
def escapedChar (c : Char) : List Char :=
  match c with
  | '"' => ['\\', '"']
  | '\\' => ['\\', '\\']
  | '\x08' => ['\\', 'b']
  | '\x0c' => ['\\', 'f']
  | '\n' => ['\\', 'n']
  | '\r' => ['\\', 'r']
  | '\t' => ['\\', 't']
  | c =>
    if c.toNat < 0x20 then ['\\', 'u', '0', '0', hexDigit (c.toNat / 16), hexDigit c.toNat]
    else [c]

/-- A string between quotes. -/
def quotedText (s : String) : String := String.ofList ('"' :: s.toList.flatMap escapedChar ++ ['"'])

/-- A line break with the blanks of a level. -/
def lineBreak (level : Nat) : String := "\n" ++ String.ofList (List.replicate (2 * level) ' ')

mutual

/-- The text of a value whose lines start at `level`. -/
def prettyAt (level : Nat) : Json → String
  | null => "null"
  | bool value => if value then "true" else "false"
  | integer value => value.repr
  | real literal => literal
  | string value => quotedText value
  | array [] => "[]"
  | array (item :: rest) =>
    "[" ++ lineBreak (level + 1) ++ prettyAt (level + 1) item ++ prettyItems (level + 1) rest
      ++ lineBreak level ++ "]"
  | object [] => "\x7b\x7d"
  | object (member :: rest) =>
    "\x7b" ++ lineBreak (level + 1) ++ prettyMember (level + 1) member
      ++ prettyMembers (level + 1) rest ++ lineBreak level ++ "\x7d"

/-- The items after the first. -/
def prettyItems (level : Nat) : List Json → String
  | [] => ""
  | item :: rest => "," ++ lineBreak level ++ prettyAt level item ++ prettyItems level rest

/-- A key and its value. -/
def prettyMember (level : Nat) : String × Json → String
  | (key, value) => quotedText key ++ ": " ++ prettyAt level value

/-- The members after the first. -/
def prettyMembers (level : Nat) : List (String × Json) → String
  | [] => ""
  | member :: rest =>
    "," ++ lineBreak level ++ prettyMember level member ++ prettyMembers level rest

end

/-- The text of a value on indented lines. -/
def pretty (value : Json) : String := prettyAt 0 value

end SchemaGraph.Json
