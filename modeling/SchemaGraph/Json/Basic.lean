import SchemaGraph.OrderedMap

/-!
# JSON values

JSON documents as trees (`SchemaGraph.Json`). A number is an integer if it is written as one
and fits 64 bits; any other number only keeps its written form, because what is done with
values never depends on more than that it is a number and no integer.

A document may give a key of an object several times. `SchemaGraph.Json.normal` is the value
that such a document means: the key keeps its first place and its last value.
-/

namespace SchemaGraph

/-- A JSON document, or the value it stands for. -/
inductive Json
  | null
  | bool (value : Bool)
  /-- A number that is an integer. -/
  | integer (value : Int)
  /-- Any other number, as it is written. -/
  | real (literal : String)
  | string (value : String)
  | array (items : List Json)
  /-- An object with its members in order. -/
  | object (members : List (String × Json))

namespace Json

instance : Inhabited Json := ⟨null⟩

/-- The value of a key in a list of members: the first one counts. -/
def field? (members : List (String × Json)) (key : String) : Option Json :=
  lookupEntry key members

mutual

/-- The value that a document means: every key once, in its first place with its last value. -/
def normal : Json → Json
  | array items => array (normalItems items)
  | object members => object (OrderedMap.ofList (normalMembers members)).entries
  | other => other

/-- The values of items. -/
def normalItems : List Json → List Json
  | [] => []
  | item :: rest => item.normal :: normalItems rest

/-- The values of members, which may still repeat keys. -/
def normalMembers : List (String × Json) → List (String × Json)
  | [] => []
  | (key, value) :: rest => (key, value.normal) :: normalMembers rest

end

/-- An object with texts as values. -/
def ofTexts (members : List (String × String)) : Json :=
  object (members.map fun (key, value) => (key, string value))

end Json

end SchemaGraph
