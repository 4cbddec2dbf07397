import SchemaGraph.Attribute.Store
import SchemaGraph.Node

/-!
# Drafts

A generation under construction (`SchemaGraph.Draft`). Nodes are **interned**
(`SchemaGraph.Build.intern`): a node with a canonical form and identity that the draft has
already is not stored again, its attributes are merged into the one that is there. A slot can
be reserved before its node is known, which is how cycles are built; if such a node turns
out to exist already, its slot becomes an indirection to it.

Operations are actions of the monad `SchemaGraph.Build`. A `SchemaGraph.Edit` is an
operation as data, for callers that hand operations over instead of running them.
-/

namespace SchemaGraph

/-- Switches of a graph that every generation takes over from the one before. -/
structure Options where
  /-- Mark every node of the first generation, and check after each transformation that no
  mark was dropped. -/
  trackProvenance : Bool
deriving DecidableEq, Inhabited

/-- What makes a node the same as another: its canonical form, and the attributes that take
part in identity. -/
abbrev Identity := Node × List (String × String)

/-- A generation under construction. -/
structure Draft where
  options : Options
  /-- Where the kinds of primitive nodes go. -/
  mapping : StringMapping
  /-- Whether the properties of classes are sorted by name. -/
  alphabetize : Bool
  /-- The nodes so far; an empty slot is reserved. -/
  slots : Array (Option Node)
  store : AttributeStore
  /-- The roots, by name. -/
  roots : OrderedMap String Ref
  /-- The node of each identity. -/
  identities : OrderedMap Identity Ref
  /-- Whether every new node gets a marker of its own. -/
  stamps : Bool
  /-- Whether a reserved slot became an indirection. -/
  forwarded : Bool

namespace Draft

/-- A draft of generation `serial` that has no nodes yet. -/
def ofGeneration (serial : Nat) (options : Options) (mapping : StringMapping)
    (alphabetize : Bool) : Draft where
  options
  mapping
  alphabetize
  slots := #[]
  store := .empty serial
  roots := ∅
  identities := ∅
  stamps := false
  forwarded := false

/-- A draft of a first generation. With provenance tracking on, every node that is made
gets its own marker. -/
def initial (options : Options) : Draft :=
  { ofGeneration 0 options .preserving false with stamps := options.trackProvenance }

/-- The serial number of the generation. -/
def serial (b : Draft) : Nat := b.store.serial

/-- Number of slots, filled or not. -/
def size (b : Draft) : Nat := b.slots.size

/-- The node at an index, unless its slot is empty or missing. -/
def node? (b : Draft) (index : Nat) : Option Node := b.slots[index]?.join

/-- The node of a reference of this generation, unless its slot is empty or missing. -/
def lookup (b : Draft) (r : Ref) : Except Fault (Option Node) := do
  r.requireSerial b.serial
  return b.node? r.index

/-- The node at an index with its attributes. -/
def entry? (b : Draft) (index : Nat) : Option (Node × Attributes) :=
  (b.node? index).map (·, b.store.atIndex index)

/-- What is wrong with a child of a new node, if anything. -/
def childFault? (b : Draft) (child : Ref) : Option Fault :=
  if child.serial ≠ b.serial then some (.wrongGeneration child b.serial)
  else if child.index < b.size then none
  else some (.childPastEnd child)

/-- The canonical form of a node whose children all have slots. -/
def canonical (b : Draft) (node : Node) : Except Fault Node :=
  match node.children.findSome? b.childFault? with
  | some fault => .error fault
  | none => .ok (node.canonical b.mapping b.alphabetize)

end Draft

/-- Actions on a generation under construction. -/
abbrev Build := StateT Draft (Except Fault)

namespace Build

/-- Reserve a slot for a node that is supplied later. -/
def reserve : Build Ref := fun b =>
  .ok (⟨b.serial, b.size⟩, { b with slots := b.slots.push none })

/-- Put a node into an empty slot. -/
def fill (r : Ref) (node : Node) : Build Unit := fun b => do
  r.requireSerial b.serial
  match b.slots[r.index]? with
  | none => throw (.neverReserved r)
  | some (some _) => throw (.definedTwice r)
  | some none => return ((), { b with slots := b.slots.setIfInBounds r.index (some node) })

/-- Make an empty slot an indirection to `target`. -/
def forward (r target : Ref) : Build Unit := do
  fill r (.indirection target)
  modify fun b => { b with forwarded := true }

/-- Merge attributes into those of a node. -/
def addAttributes (r : Ref) (attributes : Attributes) : Build Unit := fun b => do
  return ((), { b with store := ← b.store.add r attributes })

/-- Merge attributes into those of a root. -/
def addRootAttributes (root : String) (attributes : Attributes) : Build Unit := fun b => do
  return ((), { b with store := ← b.store.addRoot root attributes })

/-- Make `r` the node of an identity. -/
def identify (identity : Identity) (r : Ref) : Build Unit := fun b =>
  .ok ((), { b with identities := b.identities.insert identity r })

/-- Find or make the node with the given attributes. If there is one already, the attributes
are merged into it. With `forwarding` the node ends up behind that reserved slot: the slot
gets the node, or becomes an indirection to the one that is there. -/
def intern (node : Node) (attributes : Attributes) (forwarding : Option Ref) : Build Ref := do
  let b ← get
  let node ← b.canonical node
  let identity := (node, attributes.identityTexts)
  match b.identities.find? identity with
  | some known =>
    addAttributes known attributes
    match forwarding with
    | some slot =>
      forward slot known
      return slot
    | none => return known
  | none =>
    let r ← match forwarding with
      | some slot => pure slot
      | none => reserve
    fill r node
    identify identity r
    addAttributes r attributes
    if b.stamps then
      addAttributes r (.singleton .provenance (.singleton r.index))
    return r

/-- Put a node into a reserved slot, also if one of its identity exists. The slot becomes the
node of its identity only if there is none. -/
def define (r : Ref) (node : Node) (attributes : Attributes) : Build Unit := do
  let b ← get
  let node ← b.canonical node
  let identity := (node, attributes.identityTexts)
  unless b.identities.contains identity do identify identity r
  fill r node
  addAttributes r attributes

/-- Bind a root name to a node. A name keeps its first node. -/
def addRoot (root : String) (r : Ref) : Build Unit := fun b => do
  r.requireSerial b.serial
  match b.roots.find? root with
  | some bound => if bound = r then return ((), b) else throw (.rootBound root bound)
  | none => return ((), { b with roots := b.roots.insert root r })

end Build

/-! ### Operations as data -/

/-- An operation on a draft. -/
inductive Edit
  /-- Reserve a slot. -/
  | reserve
  /-- Find or make a node. -/
  | intern (node : Node) (attributes : Attributes) (forwarding : Option Ref)
  /-- Merge attributes into a node. -/
  | annotate (r : Ref) (attributes : Attributes)
  /-- Bind a root. -/
  | bindRoot (root : String) (r : Ref)
  /-- Merge attributes into a root. -/
  | annotateRoot (root : String) (attributes : Attributes)

namespace Edit

/-- What an operation answers: the reference it made or found, for those that do. -/
@[reducible]
def Answer : Edit → Type
  | reserve | intern .. => Ref
  | annotate .. | bindRoot .. | annotateRoot .. => Unit

/-- Run an operation. -/
def run : (e : Edit) → Build e.Answer
  | reserve => Build.reserve
  | intern node attributes forwarding => Build.intern node attributes forwarding
  | annotate r attributes => Build.addAttributes r attributes
  | bindRoot root r => Build.addRoot root r
  | annotateRoot root attributes => Build.addRootAttributes root attributes

/-- The reference in an answer. -/
def answerRef? : (e : Edit) → e.Answer → Option Ref
  | reserve, r | intern .., r => some r
  | annotate .., _ | bindRoot .., _ | annotateRoot .., _ => none

end Edit

end SchemaGraph
