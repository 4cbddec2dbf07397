import SchemaGraph.Generation.Traversal

/-!
# Listings

The texts in which a generation is shown: one line per root and node
(`SchemaGraph.Generation.listing`), that listing followed by the order of declarations
(`SchemaGraph.Generation.report`), and the record form (`SchemaGraph.Generation.recordText`).
-/

namespace SchemaGraph

namespace Generation

/-- The line of a root. -/
def rootLine (root : String × Ref) : String := s!"top-level {root.1}: {root.2.index}\n"

/-- The line of a node: index, kind, name, children and attributes. -/
def nodeLine (g : Generation) (index : Nat) (node : Node) : Except Fault String := do
  let name ← g.nameOf (g.refAt index)
  let nameText := match name with
    | some name => " " ++ name
    | none => ""
  let childText := if node.children.isEmpty then ""
    else " -> " ++ " ".intercalate (node.children.map fun c => c.index.repr)
  let attributes := (g.store.atIndex index).shown.map fun (kind, value) =>
    " | " ++ kind ++ ": " ++ value
  return index.repr ++ ": " ++ node.kind.name ++ nameText ++ childText ++ String.join attributes
    ++ "\n"

/-- A line for every root and every node, reachable or not. -/
def listing (g : Generation) : Except Fault String := do
  let roots := g.roots.entries.map rootLine
  let nodes ← g.nodes.toList.zipIdx.mapM fun (node, index) => g.nodeLine index node
  return String.join roots ++ String.join nodes

/-- What a node is called in the order of declarations. -/
def displayName (g : Generation) (r : Ref) : Except Fault String := do
  return (← g.nameOf r).getD s!"#{r.index}"

/-- The line of a group of declarations. -/
def groupLine (g : Generation) (group : List Ref) : Except Fault String := do
  let names := ", ".intercalate (← group.mapM g.displayName)
  return if group.length > 1 then "  cycle: " ++ names ++ "\n" else "  " ++ names ++ "\n"

/-- The listing, followed by the order in which the named nodes would be declared. -/
def report (g : Generation) : Except Fault String := do
  let listing ← g.listing
  let groups ← g.declarationOrder
  return listing ++ "\ndeclaration order:\n" ++ String.join (← groups.mapM g.groupLine)

end Generation

/-! ### Record form -/

/-- A record with its fields. -/
def recordForm (name : String) (fields : List (String × String)) : String :=
  name ++ " \x7b " ++ ", ".intercalate (fields.map fun f => f.1 ++ ": " ++ f.2) ++ " \x7d"

/-- A list in brackets. -/
def listForm (items : List String) : String := "[" ++ ", ".intercalate items ++ "]"

/-- A set in braces. -/
def setForm (items : List String) : String := "\x7b" ++ ", ".intercalate items ++ "\x7d"

/-- The name of a primitive kind in record form: its words joined, each with a capital. -/
def PrimitiveKind.recordName : PrimitiveKind → String
  | none => "None"
  | any => "Any"
  | null => "Null"
  | bool => "Bool"
  | integer => "Integer"
  | double => "Double"
  | string => "String"
  | date => "Date"
  | time => "Time"
  | dateTime => "DateTime"
  | uuid => "Uuid"
  | uri => "Uri"
  | integerString => "IntegerString"
  | boolString => "BoolString"

/-- The record form of a property. -/
def Property.recordText (p : Property) : String :=
  recordForm "ClassProperty"
    [("name", Text.quoted p.name), ("ty", p.type.text),
      ("optional", if p.optional then "true" else "false")]

/-- The record form of a node. -/
def Node.recordText : Node → String
  | primitive k => recordForm "Primitive" [("primitive", k.recordName)]
  | array items => recordForm "Array" [("items", items.text)]
  | map values => recordForm "Map" [("values", values.text)]
  | object properties =>
    recordForm "Class" [("properties", listForm (properties.map Property.recordText))]
  | enum cases => recordForm "Enum" [("cases", listForm (cases.map Text.quoted))]
  | union members => recordForm "Union" [("members", setForm (members.toList.map Ref.text))]
  | intersection members =>
    recordForm "Intersection" [("members", setForm (members.toList.map Ref.text))]

/-- The record form of a generation: serial number, roots and nodes. -/
def Generation.recordText (g : Generation) : String :=
  recordForm "TypeGraph"
    [("serial", g.serial.repr),
      ("top_levels", setForm (g.roots.entries.map fun (name, r) =>
        Text.quoted name ++ ": " ++ r.text)),
      ("types", listForm (g.nodes.toList.map Node.recordText))]

end SchemaGraph
