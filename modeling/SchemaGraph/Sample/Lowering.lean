import SchemaGraph.Generation.Basic
import SchemaGraph.Sample.Identifier
import SchemaGraph.Sample.Shape

/-!
# Graphs from samples

The first generation of a schema graph, from JSON samples (`SchemaGraph.Samples.build`).
Samples are folded into one shape per root; the shapes are then lowered into nodes. A place
where values of one kind were seen becomes that kind, and a place where several were seen
becomes a union. Classes, unions and enums carry the name of the place.
-/

namespace SchemaGraph

/-- The attribute of a name. -/
def nameAttribute (name : String) : Attributes := .singleton .names (.singleton name)

/-- A node without attributes. -/
def internPlain (node : Node) : Build Ref := Build.intern node ∅ none

/-- A node with a name. -/
def internNamed (name : String) (node : Node) : Build Ref :=
  Build.intern node (nameAttribute name) none

/-- The node of a place where values of the given nodes were seen: any value if there are
none, the node itself if there is one, and else their union. -/
def joinMembers (name : String) (members : List Ref) : Build Ref :=
  let members := SortedSet.ofList members
  match members.toList with
  | [] => internPlain (.primitive .any)
  | [only] => return only
  | _ => internNamed name (.union members)

/-- The nodes of the scalars seen at a place. Integers are doubles where other numbers were
seen. -/
def scalarNodes (null bool integer real : Bool) : Build (List Ref) :=
  let kinds : List PrimitiveKind :=
    (if null then [.null] else []) ++ (if bool then [.bool] else []) ++
      (if real then [.double] else if integer then [.integer] else [])
  kinds.mapM fun kind => internPlain (.primitive kind)

/-- The node of the strings seen at a place. -/
def stringNodes (name : String) : Option StringShape → Build (List Ref)
  | none => return []
  | some strings =>
    match strings.closedLabels? with
    | some cases => return [← internNamed name (.enum cases)]
    | none => return [← internPlain (.primitive strings.kind)]

/-- The attributes of a class: its name, and how often it was seen if more than once. -/
def classAttributes (name : String) (seen : Nat) : Except Fault Attributes :=
  if seen > 1 then
    (nameAttribute name).add .description (.singleton s!"observed in {seen} objects")
  else .ok (nameAttribute name)

mutual

/-- The node of a place called `name`. -/
def placeNode (name : String) : Shape → Build Ref
  | ⟨null, bool, integer, real, strings, array, object⟩ => do
    let scalars ← scalarNodes null bool integer real
    let strings ← stringNodes name strings
    let arrays ← arrayNodes name array
    let objects ← objectNodes name object
    joinMembers name (scalars ++ strings ++ arrays ++ objects)

/-- The node of the arrays seen at a place. -/
def arrayNodes (name : String) : Option ArrayShape → Build (List Ref)
  | none => return []
  | some ⟨_, items⟩ => do
    let items ← placeNode (name ++ "Element") items
    return [← internPlain (.array items)]

/-- The node of the objects seen at a place. -/
def objectNodes (name : String) : Option ObjectShape → Build (List Ref)
  | none => return []
  | some ⟨seen, fields⟩ => do
    let properties ← fieldProperties seen fields
    let attributes ← classAttributes name seen
    return [← Build.intern (.object properties) attributes none]

/-- The properties of the fields of `seen` objects. -/
def fieldProperties (seen : Nat) : List FieldShape → Build (List Property)
  | [] => return []
  | ⟨key, presentIn, shape⟩ :: rest => do
    let type ← placeNode (pascalCase key) shape
    let properties ← fieldProperties seen rest
    return ⟨key, type, presentIn < seen⟩ :: properties

end

/-- The samples seen so far. -/
structure Samples where
  /-- The shape of each root. -/
  roots : OrderedMap String Shape
  /-- Number of samples. -/
  count : Nat

namespace Samples

/-- No samples. -/
def empty : Samples := ⟨∅, 0⟩

instance : EmptyCollection Samples := ⟨empty⟩

/-- The samples with one more for a root. -/
def observe (s : Samples) (root : String) (value : Json) : Samples where
  roots := s.roots.insert root (((s.roots.find? root).getD ∅).observe value)
  count := s.count + 1

/-- Lower the shape of a root. -/
def placeRoot (root : String) (shape : Shape) : Build Unit := do
  let r ← placeNode root shape
  Build.addRoot root r
  Build.addRootAttributes root (nameAttribute root)

/-- The first generation of the graph of the samples. -/
def build (s : Samples) (options : Options) : Except Fault Generation := do
  let (_, b) ← (s.roots.entries.forM fun (root, shape) => placeRoot root shape).run
    (.initial options)
  Generation.ofDraft b

end Samples

end SchemaGraph
