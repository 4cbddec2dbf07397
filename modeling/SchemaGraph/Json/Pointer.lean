import SchemaGraph.Json.Basic
import SchemaGraph.Json.Number

/-!
# JSON pointers

Paths into a value (`SchemaGraph.Json.pointer?`). The empty pointer is the whole value; any
other is a list of steps, each after a slash. A step is a key of an object or the index of an
item, written without a sign and without leading zeros. In a step `~1` stands for a slash and
`~0` for a tilde.
-/

namespace SchemaGraph.Json

/-- The steps of a text: what stands between slashes. -/
def splitSteps : List Char → List (List Char)
  | [] => [[]]
  | '/' :: rest => [] :: splitSteps rest
  | c :: rest =>
    match splitSteps rest with
    | [] => [[c]]
    | step :: steps => (c :: step) :: steps

/-- The text with `~1` read as a slash. -/
def readSlashes : List Char → List Char
  | '~' :: '1' :: rest => '/' :: readSlashes rest
  | c :: rest => c :: readSlashes rest
  | [] => []

/-- The text with `~0` read as a tilde. -/
def readTildes : List Char → List Char
  | '~' :: '0' :: rest => '~' :: readTildes rest
  | c :: rest => c :: readTildes rest
  | [] => []

/-- The key that a step writes. -/
def stepKey (step : List Char) : String := String.ofList (readTildes (readSlashes step))

/-- The index that a key writes. -/
def indexOf? (key : String) : Option Nat :=
  match key.toList with
  | [] => none
  | ['0'] => some 0
  | '0' :: _ => none
  | digits => if digits.all Char.isDigit then some (Decimal.naturalOf digits) else none

/-- The value one step below. -/
def child? (value : Json) (key : String) : Option Json :=
  match value with
  | array items => (indexOf? key).bind fun index => items[index]?
  | object members => field? members key
  | _ => none

/-- The value at a pointer. -/
def pointer? (value : Json) (pointer : String) : Option Json :=
  match pointer.toList with
  | [] => some value
  | '/' :: rest => (splitSteps rest).foldlM (fun value step => value.child? (stepKey step)) value
  | _ => none

end SchemaGraph.Json
