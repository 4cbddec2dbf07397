import SchemaGraph.Draft

/-!
# Generations

A frozen schema graph (`SchemaGraph.Generation`). It never changes: whatever transforms a
graph makes a new generation with the next serial number and leaves this one as it is.

A generation is closed: every child and every root is a reference to one of its own nodes.
`SchemaGraph.Generation.ofDraft` checks that when a draft is frozen, and the type keeps it.
-/

namespace SchemaGraph

/-- One frozen generation of a schema graph. -/
structure Generation where
  options : Options
  nodes : Array Node
  store : AttributeStore
  /-- The roots, by name. -/
  roots : OrderedMap String Ref
  /-- Whether transformations print the graph before and after they run. -/
  announced : Bool
  children_inBounds : ∀ node ∈ nodes, ∀ c ∈ node.children,
    c.serial = store.serial ∧ c.index < nodes.size
  roots_inBounds : ∀ r ∈ roots.values, r.serial = store.serial ∧ r.index < nodes.size

namespace Generation

/-! ### Freezing -/

/-- What is wrong with a child of the node at `index`, if anything. -/
def childFault? (serial size index : Nat) (child : Ref) : Option Fault :=
  if child.serial ≠ serial then some (.wrongGeneration child serial)
  else if child.index < size then none
  else some (.danglingChild index child)

/-- What is wrong with a root, if anything. -/
def rootFault? (serial size : Nat) (root : Ref) : Option Fault :=
  if root.serial ≠ serial then some (.wrongGeneration root serial)
  else if root.index < size then none
  else some (.danglingRoot root)

/-- What is wrong with the children of a list of nodes, the first of which is at `index`. -/
def childrenFault? (serial size : Nat) : (index : Nat) → List Node → Option Fault
  | _, [] => none
  | index, node :: rest =>
    (node.children.findSome? (childFault? serial size index)).or
      (childrenFault? serial size (index + 1) rest)

theorem inBounds_of_childFault? {serial size index : Nat} {c : Ref}
    (h : childFault? serial size index c = none) : c.serial = serial ∧ c.index < size := by
  unfold childFault? at h
  grind

theorem inBounds_of_rootFault? {serial size : Nat} {r : Ref}
    (h : rootFault? serial size r = none) : r.serial = serial ∧ r.index < size := by
  unfold rootFault? at h
  grind

theorem inBounds_of_childrenFault? {serial size index : Nat} {nodes : List Node}
    (h : childrenFault? serial size index nodes = none) {node : Node} (hn : node ∈ nodes) {c : Ref}
    (hc : c ∈ node.children) : c.serial = serial ∧ c.index < size := by
  induction nodes generalizing index with
  | nil => simp at hn
  | cons first rest ih =>
    simp only [childrenFault?, Option.or_eq_none_iff, List.findSome?_eq_none_iff] at h
    rcases List.mem_cons.1 hn with rfl | hn
    · exact inBounds_of_childFault? (h.1 c hc)
    · exact ih h.2 hn

/-- The generation of the given nodes and roots. Every child and every root has to be one of
the nodes. -/
def freeze (options : Options) (nodes : Array Node) (store : AttributeStore)
    (roots : OrderedMap String Ref) : Except Fault Generation :=
  match hn : childrenFault? store.serial nodes.size 0 nodes.toList with
  | some fault => .error fault
  | none =>
    match hr : roots.values.findSome? (rootFault? store.serial nodes.size) with
    | some fault => .error fault
    | none =>
      .ok {
        options, nodes, store, roots
        announced := false
        children_inBounds := fun _ h _ hc =>
          inBounds_of_childrenFault? hn (Array.mem_toList_iff.2 h) hc
        roots_inBounds := fun r h =>
          inBounds_of_rootFault? (List.findSome?_eq_none_iff.1 hr r h) }

/-- The nodes of a list of slots, the first of which is at `index`. No slot may be empty. -/
def filledSlots (serial : Nat) : (index : Nat) → List (Option Node) → Except Fault (List Node)
  | _, [] => .ok []
  | index, none :: _ => .error (.unresolved ⟨serial, index⟩)
  | index, some node :: rest => (filledSlots serial (index + 1) rest).map (node :: ·)

/-- The generation that a draft becomes when it is frozen. -/
def ofDraft (b : Draft) : Except Fault Generation := do
  let nodes ← filledSlots b.serial 0 b.slots.toList
  freeze b.options nodes.toArray b.store b.roots

/-! ### Looking at nodes -/

/-- The serial number of the generation. -/
def serial (g : Generation) : Nat := g.store.serial

/-- Number of nodes, reachable or not. -/
def size (g : Generation) : Nat := g.nodes.size

/-- The reference to the node at an index. -/
def refAt (g : Generation) (index : Nat) : Ref := ⟨g.serial, index⟩

/-- The node at an index, if there is one. -/
def node? (g : Generation) (index : Nat) : Option Node := g.nodes[index]?

/-- The node at an index. -/
def nodeAt (g : Generation) (index : Nat) : Except Fault Node :=
  match g.node? index with
  | some node => .ok node
  | none => .error (.noSuchNode index g.serial)

/-- The reference to an index that has a node. -/
def checkedRefAt (g : Generation) (index : Nat) : Except Fault Ref := do
  let _ ← g.nodeAt index
  return g.refAt index

/-- The node of a reference. -/
def get (g : Generation) (r : Ref) : Except Fault Node := do
  r.requireSerial g.serial
  g.nodeAt r.index

/-- The node of a reference of this generation, if there is one. -/
def lookup (g : Generation) (r : Ref) : Except Fault (Option Node) := do
  r.requireSerial g.serial
  return g.node? r.index

/-- The node at an index with its attributes, if there is one. -/
def entry? (g : Generation) (index : Nat) : Option (Node × Attributes) :=
  (g.node? index).map (·, g.store.atIndex index)

/-- The node at an index with its attributes. -/
def entryAt (g : Generation) (index : Nat) : Except Fault (Node × Attributes) := do
  return (← g.nodeAt index, g.store.atIndex index)

/-- The attributes of a node. -/
def attributes (g : Generation) (r : Ref) : Except Fault Attributes := g.store.ofNode r

/-- The generation seen through one attribute kind. -/
def column (g : Generation) {t : ValueType} (kind : AttributeKind t) : AttributeColumn t :=
  ⟨g.store, kind⟩

/-- The name that a renderer would use for a node, if it has any. -/
def nameOf (g : Generation) (r : Ref) : Except Fault (Option String) := do
  return (← g.store.find? .names r).bind pickName

/-- The children of the node at an index. -/
def childrenAt (g : Generation) (index : Nat) : List Ref :=
  match g.node? index with
  | some node => node.children
  | none => []

/-- The generation that prints itself when it is transformed. -/
def announce (g : Generation) : Generation := { g with announced := true }

end Generation

end SchemaGraph
