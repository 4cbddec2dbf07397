import SchemaGraph.Json.Basic
import SchemaGraph.Node

/-!
# Nodes as JSON

The JSON form of nodes, in both directions (`SchemaGraph.Node.toJson`,
`SchemaGraph.Node.ofJson?`). A node is an object whose member `kind` names its kind and says
which other members there are.

Reading accepts more than writing produces. Members that mean nothing for the kind are
ignored, the members of a union or intersection may come in any order and repeat, and a
record may also be the array of its values in order. A member that means something must be
there exactly once.
-/

namespace SchemaGraph

/-! ### Writing -/

namespace Ref

/-- The JSON form of a reference. -/
def toJson (r : Ref) : Json :=
  .object [("serial", .integer r.serial), ("index", .integer r.index)]

end Ref

/-- The JSON form of a property. -/
def Property.toJson (p : Property) : Json :=
  .object [("name", .string p.name), ("ty", p.type.toJson), ("optional", .bool p.optional)]

/-- The word for a node's kind in JSON. -/
def NodeKind.tag : NodeKind → String
  | primitive _ => "primitive"
  | array => "array"
  | map => "map"
  | object => "class"
  | enum => "enum"
  | union => "union"
  | intersection => "intersection"

/-- The JSON form of a node's kind. -/
def NodeKind.toJson (k : NodeKind) : Json :=
  match k with
  | primitive p => .object [("primitive", .string p.name)]
  | other => .string other.tag

namespace Node

/-- The members of a node's JSON form besides its kind. -/
def payload : Node → List (String × Json)
  | primitive k => [("primitive", .string k.name)]
  | array items => [("items", items.toJson)]
  | map values => [("values", values.toJson)]
  | object properties => [("properties", .array (properties.map Property.toJson))]
  | enum cases => [("cases", .array (cases.map Json.string))]
  | union members | intersection members =>
    [("members", .array (members.toList.map Ref.toJson))]

/-- The members of a node's JSON form. -/
def jsonMembers (node : Node) : List (String × Json) :=
  ("kind", .string node.kind.tag) :: node.payload

/-- The JSON form of a node. -/
def toJson (node : Node) : Json := .object node.jsonMembers

end Node

/-! ### Reading -/

namespace Json

/-- The value of a key that stands there exactly once. -/
def single? (members : List (String × Json)) (key : String) : Option Json :=
  match members.filter (·.1 = key) with
  | [(_, value)] => some value
  | _ => none

/-- The values of the given keys, from an object that has each of them exactly once or from
the array of the values. -/
def record? (keys : List String) : Json → Option (List Json)
  | object members => keys.mapM (single? members)
  | array values => if values.length = keys.length then some values else none
  | _ => none

/-- A number that fits 32 bits. -/
def word? : Json → Option Nat
  | integer n => if 0 ≤ n && n.toNat < UInt32.size then some n.toNat else none
  | _ => none

/-- A truth value. -/
def bool? : Json → Option Bool
  | bool b => some b
  | _ => none

/-- A text. -/
def string? : Json → Option String
  | string s => some s
  | _ => none

/-- The items of an array, each read by `read`. -/
def list? {α : Type} (read : Json → Option α) : Json → Option (List α)
  | array items => items.mapM read
  | _ => none

end Json

/-- Read a reference. -/
def Ref.ofJson? (json : Json) : Option Ref :=
  match json.record? ["serial", "index"] with
  | some [serial, index] => do return ⟨← serial.word?, ← index.word?⟩
  | _ => none

/-- Read a property. -/
def Property.ofJson? (json : Json) : Option Property :=
  match json.record? ["name", "ty", "optional"] with
  | some [name, type, optional] => do
    return ⟨← name.string?, ← Ref.ofJson? type, ← optional.bool?⟩
  | _ => none

/-- Read a primitive kind: its name, alone or as the only key of an object without a value. -/
def PrimitiveKind.ofJson? : Json → Option PrimitiveKind
  | .string name => ofName? name
  | .object [(name, .null)] | .object [(name, .object [])] => ofName? name
  | _ => Option.none

namespace Node

/-- Read the one member that a node of some kind has besides its kind. -/
def readPayload {α : Type} (key : String) (read : Json → Option α) (make : α → Node)
    (rest : Json) : Option Node :=
  match rest.record? [key] with
  | some [value] => (read value).map make
  | _ => none

/-- Read a node whose kind is known from what stands beside it. -/
def ofTagged? (tag : String) (rest : Json) : Option Node :=
  let members (make : SortedSet Ref → Node) : Option Node :=
    readPayload "members" (Json.list? Ref.ofJson?) (fun refs => make (.ofList refs)) rest
  match tag with
  | "primitive" => readPayload "primitive" PrimitiveKind.ofJson? primitive rest
  | "array" => readPayload "items" Ref.ofJson? array rest
  | "map" => readPayload "values" Ref.ofJson? map rest
  | "class" => readPayload "properties" (Json.list? Property.ofJson?) object rest
  | "enum" => readPayload "cases" (Json.list? Json.string?) enum rest
  | "union" => members union
  | "intersection" => members intersection
  | _ => none

/-- Read a node. -/
def ofJson? : Json → Option Node
  | .object members =>
    match Json.single? members "kind" with
    | some (.string tag) => ofTagged? tag (.object members)
    | _ => none
  | .array (.string tag :: rest) => ofTagged? tag (.array rest)
  | _ => none

end Node

end SchemaGraph
