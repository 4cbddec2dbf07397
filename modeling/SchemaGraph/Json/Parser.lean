import SchemaGraph.Json.Basic
import SchemaGraph.Json.Number

/-!
# Reading JSON

The reader of JSON text (`SchemaGraph.Json.read`). It follows the grammar strictly: no
trailing commas, no comments, no byte order mark, no text after the document. Arrays and
objects may be nested 127 deep, escapes have to denote characters – a half of a surrogate
pair alone does not – and numbers have to be finite.

Every reader takes the characters that are left and returns what it read with the characters
after it, or nothing if the text is malformed.
-/

namespace SchemaGraph.Json

/-- The blanks that may stand between the parts of a document. -/
def isSpace (c : Char) : Bool := c = ' ' || c = '\t' || c = '\n' || c = '\r'

/-- The text from its first character that is no blank. -/
def skipSpace (cs : List Char) : List Char := cs.dropWhile isSpace

/-! ### Strings -/

/-- The value of a hexadecimal digit. -/
def hexValue? (c : Char) : Option Nat :=
  if c.isDigit then some (c.toNat - '0'.toNat)
  else if 'a' ≤ c && c ≤ 'f' then some (c.toNat - 'a'.toNat + 10)
  else if 'A' ≤ c && c ≤ 'F' then some (c.toNat - 'A'.toNat + 10)
  else none

/-- The number that four hexadecimal digits write. -/
def hex4? (a b c d : Char) : Option Nat := do
  return (((← hexValue? a) * 16 + (← hexValue? b)) * 16 + (← hexValue? c)) * 16 + (← hexValue? d)

/-- Whether a UTF-16 unit is the first half of a pair. -/
def isHighSurrogate (n : Nat) : Bool := 0xD800 ≤ n && n < 0xDC00

/-- Whether a UTF-16 unit is the second half of a pair. -/
def isLowSurrogate (n : Nat) : Bool := 0xDC00 ≤ n && n < 0xE000

/-- The character of a pair of UTF-16 units. -/
def pairChar (high low : Nat) : Char :=
  Char.ofNat (0x10000 + (high - 0xD800) * 0x400 + (low - 0xDC00))

/-- What a backslash and a letter stand for. -/
def escapeChar? : Char → Option Char
  | '"' => some '"'
  | '\\' => some '\\'
  | '/' => some '/'
  | 'b' => some '\x08'
  | 'f' => some '\x0c'
  | 'n' => some '\n'
  | 'r' => some '\r'
  | 't' => some '\t'
  | _ => none

/-- The characters of a string up to its closing quote. -/
def readChars : List Char → Option (List Char × List Char)
  | [] => none
  | '"' :: rest => some ([], rest)
  | '\\' :: 'u' :: a :: b :: c :: d :: rest =>
    match hex4? a b c d with
    | none => none
    | some unit =>
      if isLowSurrogate unit then none
      else if isHighSurrogate unit then
        match rest with
        | '\\' :: 'u' :: a :: b :: c :: d :: rest =>
          match hex4? a b c d with
          | none => none
          | some low =>
            if isLowSurrogate low then
              (readChars rest).map fun (cs, rest) => (pairChar unit low :: cs, rest)
            else none
        | _ => none
      else (readChars rest).map fun (cs, rest) => (Char.ofNat unit :: cs, rest)
  | '\\' :: e :: rest =>
    match escapeChar? e with
    | none => none
    | some c => (readChars rest).map fun (cs, rest) => (c :: cs, rest)
  | c :: rest =>
    if c = '\\' || c.toNat < 0x20 then none
    else (readChars rest).map fun (cs, rest) => (c :: cs, rest)

/-! ### Numbers -/

/-- The digits at the front of a text, and the rest. -/
def spanDigits (cs : List Char) : List Char × List Char := cs.span Char.isDigit

/-- The digits of an integer part: one or more, and a leading zero stands alone. -/
def readInteger (cs : List Char) : Option (List Char × List Char) :=
  match spanDigits cs with
  | ([], _) => none
  | ('0' :: _ :: _, _) => none
  | found => some found

/-- A point with the digits behind it, if the text goes on with a point. -/
def readFraction : List Char → Option (Option (List Char) × List Char)
  | '.' :: rest =>
    match spanDigits rest with
    | ([], _) => none
    | (digits, rest) => some (some digits, rest)
  | rest => some (none, rest)

/-- The sign of an exponent. -/
def readExponentSign : List Char → Bool × List Char
  | '-' :: rest => (true, rest)
  | '+' :: rest => (false, rest)
  | rest => (false, rest)

/-- An exponent, if the text goes on with the letter of one. -/
def readExponent : List Char → Option (Option Int × List Char)
  | [] => some (none, [])
  | c :: rest =>
    if c = 'e' || c = 'E' then
      let (negative, rest) := readExponentSign rest
      match spanDigits rest with
      | ([], _) => none
      | (digits, rest) =>
        let magnitude : Int := Decimal.naturalOf digits
        some (some (if negative then -magnitude else magnitude), rest)
    else some (none, c :: rest)

/-- A number, without its sign. -/
def readUnsigned (negative : Bool) (cs : List Char) : Option (Decimal.Number × List Char) := do
  let (whole, rest) ← readInteger cs
  let (fraction, rest) ← readFraction rest
  let (exponent, rest) ← readExponent rest
  return (⟨negative, whole, fraction, exponent⟩, rest)

/-- A number. -/
def readNumber (cs : List Char) : Option (Json × List Char) := do
  let (number, rest) ← match cs with
    | '-' :: rest => readUnsigned true rest
    | cs => readUnsigned false cs
  match number.integer? with
  | some value => return (integer value, rest)
  | none =>
    if number.scaled.isFinite then
      return (real (String.ofList (cs.take (cs.length - rest.length))), rest)
    else none

/-! ### Values -/

/-- A value that is no array and no object, at the front of a text. -/
def readScalar : List Char → Option (Json × List Char)
  | '"' :: rest => (readChars rest).map fun (cs, rest) => (string (String.ofList cs), rest)
  | 'n' :: 'u' :: 'l' :: 'l' :: rest => some (null, rest)
  | 't' :: 'r' :: 'u' :: 'e' :: rest => some (bool true, rest)
  | 'f' :: 'a' :: 'l' :: 's' :: 'e' :: rest => some (bool false, rest)
  | cs => readNumber cs

/-- One item or more, separated by commas, up to the closing bracket. There are at most
`room` items. -/
def readItems {α : Type} (readItem : List Char → Option (α × List Char)) (close : Char) :
    (room : Nat) → List Char → Option (List α × List Char)
  | 0, _ => none
  | room + 1, cs => do
    let (item, rest) ← readItem cs
    match skipSpace rest with
    | [] => none
    | c :: rest =>
      if c = close then return ([item], rest)
      else if c = ',' then
        let (items, rest) ← readItems readItem close room rest
        return (item :: items, rest)
      else none

/-- The items of a list after its opening bracket, which may be none. -/
def readList {α : Type} (readItem : List Char → Option (α × List Char)) (close : Char)
    (cs : List Char) : Option (List α × List Char) :=
  match skipSpace cs with
  | [] => none
  | c :: rest => if c = close then some ([], rest) else readItems readItem close cs.length cs

/-- A key, a colon and a value. -/
def readMember (readItem : List Char → Option (Json × List Char)) (cs : List Char) :
    Option ((String × Json) × List Char) :=
  match skipSpace cs with
  | '"' :: rest => do
    let (key, rest) ← readChars rest
    match skipSpace rest with
    | ':' :: rest =>
      let (value, rest) ← readItem rest
      return ((String.ofList key, value), rest)
    | _ => none
  | _ => none

/-- A value after any blanks. Arrays and objects in it may be nested `depth` deep. -/
def readValue : (depth : Nat) → List Char → Option (Json × List Char)
  | 0, cs => readScalar (skipSpace cs)
  | depth + 1, cs =>
    match skipSpace cs with
    | '[' :: rest =>
      (readList (readValue depth) ']' rest).map fun (items, rest) => (array items, rest)
    | '\x7b' :: rest =>
      (readList (readMember (readValue depth)) '\x7d' rest).map fun (members, rest) =>
        (object members, rest)
    | cs => readScalar cs

/-- How deep arrays and objects may be nested. -/
def maxDepth : Nat := 127

/-- The document that a text holds, as it is written: objects may repeat keys. -/
def read (text : String) : Option Json :=
  match readValue maxDepth text.toList with
  | some (value, rest) => if (skipSpace rest).isEmpty then some value else none
  | none => none

/-- The value that a text holds. -/
def parse (text : String) : Option Json := (read text).map normal

end SchemaGraph.Json
