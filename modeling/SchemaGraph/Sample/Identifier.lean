/-!
# Type names from keys

The name of a type that was found under a key (`SchemaGraph.pascalCase`): `user_id`,
`user-id` and `userId` all give `UserId`. Only the letters and digits of ASCII are kept;
everything else separates words.
-/

namespace SchemaGraph

/-- The letters and digits of a text, the first of each word as a capital. `atStart` says
whether the next one begins a word. -/
def joinWords (atStart : Bool) : List Char → List Char
  | [] => []
  | c :: rest =>
    if c.isAlphanum then (if atStart then c.toUpper else c) :: joinWords false rest
    else joinWords true rest

/-- The text with a `T` in front, if it does not start with a letter. -/
def startWithLetter : List Char → List Char
  | [] => ['T']
  | c :: rest => if c.isDigit then 'T' :: c :: rest else c :: rest

/-- The type name of a key. -/
def pascalCase (key : String) : String :=
  String.ofList (startWithLetter (joinWords true key.toList))

example :
    ["user_id", "userId", "2fa", "__"].map pascalCase = ["UserId", "UserId", "T2fa", "T"] := by
  decide

end SchemaGraph
