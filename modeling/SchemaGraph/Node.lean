import SchemaGraph.PrimitiveKind
import SchemaGraph.Ref
import SchemaGraph.SortedSet

/-!
# Nodes

A node of a schema graph (`SchemaGraph.Node`). Nodes do not contain each other: every link
is a reference into the same generation, which is what lets a graph be cyclic.

The children of a node are listed in one fixed order (`SchemaGraph.Node.children`), and
`SchemaGraph.Node.mapChildrenM` replaces them in that order, so a replacement with effects
has its effects in the order of the list.
-/

namespace SchemaGraph

/-- A property of a class. -/
structure Property where
  name : String
  /-- The node of the property's values. -/
  type : Ref
  /-- Whether an object of the class may lack the property. -/
  optional : Bool
deriving DecidableEq, Inhabited

/-- A node of a schema graph. -/
inductive Node
  /-- A kind without children. -/
  | primitive (kind : PrimitiveKind)
  /-- Arrays of one kind of item. -/
  | array (items : Ref)
  /-- Objects with any keys and one kind of value. -/
  | map (values : Ref)
  /-- Classes: objects with the listed properties. -/
  | object (properties : List Property)
  /-- Strings out of a list. -/
  | enum (cases : List String)
  /-- Values of some member. -/
  | union (members : SortedSet Ref)
  /-- Values of every member. -/
  | intersection (members : SortedSet Ref)
deriving DecidableEq

/-- The constructor of a node, and for a primitive node also its kind. -/
inductive NodeKind
  | primitive (kind : PrimitiveKind)
  | array
  | map
  | object
  | enum
  | union
  | intersection
deriving DecidableEq

/-- The name of a node's kind in listings. -/
def NodeKind.name : NodeKind → String
  | primitive k => k.name
  | array => "array"
  | map => "map"
  | object => "class"
  | enum => "enum"
  | union => "union"
  | intersection => "intersection"

namespace Node

instance : Inhabited Node := ⟨primitive .none⟩

/-- The kind of a node. -/
def kind : Node → NodeKind
  | primitive k => .primitive k
  | array _ => .array
  | map _ => .map
  | object _ => .object
  | enum _ => .enum
  | union _ => .union
  | intersection _ => .intersection

/-- Whether generated code would give the node a name: classes, enums and unions. -/
def isNamed : Node → Bool
  | object _ | enum _ | union _ => true
  | _ => false

/-- The child references, in their order. -/
def children : Node → List Ref
  | primitive _ | enum _ => []
  | array items => [items]
  | map values => [values]
  | object properties => properties.map Property.type
  | union members | intersection members => members.toList

/-- The node with every child replaced by what `f` returns for it. Children are visited in
their order; the members of a union or intersection are made into a set again. -/
def mapChildrenM {m : Type → Type} [Monad m] (f : Ref → m Ref) : Node → m Node
  | primitive k => pure (primitive k)
  | enum cases => pure (enum cases)
  | array items => return array (← f items)
  | map values => return map (← f values)
  | object properties =>
    return object (← properties.mapM fun p => return { p with type := ← f p.type })
  | union members => return union (.ofList (← members.toList.mapM f))
  | intersection members => return intersection (.ofList (← members.toList.mapM f))

/-- The node with every child `c` replaced by `f c`. -/
def mapChildren (f : Ref → Ref) : Node → Node
  | primitive k => primitive k
  | enum cases => enum cases
  | array items => array (f items)
  | map values => map (f values)
  | object properties => object (properties.map fun p => { p with type := f p.type })
  | union members => union (.ofList (members.toList.map f))
  | intersection members => intersection (.ofList (members.toList.map f))

/-- The member of an intersection that has only one: such a node is an **indirection**, and
it only stands for that member. -/
def indirectionTarget? : Node → Option Ref
  | intersection members =>
    match members.toList with
    | [target] => some target
    | _ => none
  | _ => none

/-- The indirection to `target`. -/
def indirection (target : Ref) : Node := intersection (.singleton target)

@[simp]
theorem indirectionTarget?_indirection (r : Ref) : (indirection r).indirectionTarget? = some r :=
  rfl

/-! ### Canonical form -/

/-- The list without the later copies of its entries. -/
def distinctCases (cases : List String) : List String := cases.eraseDups

/-- The canonical form of a node: the kind of a primitive node goes through the mapping, the
properties of a class are sorted by name if `alphabetize` is set (equal names keep their
order), and the repeated cases of an enum are dropped. -/
def canonical (mapping : StringMapping) (alphabetize : Bool) : Node → Node
  | primitive k => primitive (mapping.apply k)
  | object properties =>
    if alphabetize then object (properties.mergeSort fun p q => p.name ≤ q.name)
    else object properties
  | enum cases => enum (distinctCases cases)
  | other => other

end Node

end SchemaGraph
