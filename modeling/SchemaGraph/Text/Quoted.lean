import SchemaGraph.Text.Hidden

/-!
# Quoted text

Text between double quotes, written so that every character can be told from its picture
(`SchemaGraph.Text.quoted`): a quote and a backslash are escaped, the common controls have
their letters, and any other character without a visible form is given by its code point.
-/

namespace SchemaGraph.Text

/-- The digits of a number in base sixteen, in lower case. -/
def hexDigits (n : Nat) : List Char := Nat.toDigits 16 n

/-- How one character stands in quoted text. -/
def quotedChar (c : Char) : List Char :=
  match c with
  | '"' => ['\\', '"']
  | '\\' => ['\\', '\\']
  | '\t' => ['\\', 't']
  | '\n' => ['\\', 'n']
  | '\r' => ['\\', 'r']
  | '\x00' => ['\\', '0']
  | c => if isHidden c then ['\\', 'u', '\x7b'] ++ hexDigits c.toNat ++ ['\x7d'] else [c]

/-- A text between double quotes, with its characters escaped where needed. -/
def quoted (s : String) : String := String.ofList ('"' :: s.toList.flatMap quotedChar ++ ['"'])

example : quoted "a\"b\\c\n" = "\"a\\\"b\\\\c\\n\"" := by decide +kernel

example : quoted "\x1b" = "\"\\u\x7b1b\x7d\"" := by decide +kernel

end SchemaGraph.Text
