import SchemaGraph.Ref

/-!
# Broken invariants

What can go wrong when a graph is built or read against its rules (`SchemaGraph.Fault`).
A fault says that the caller made a mistake – a reference of another generation, a slot
filled twice – and ends the operation; it is not a result to act on.
`SchemaGraph.Fault.message` is the only place that words them.
-/

namespace SchemaGraph

/-- Why an operation on a graph cannot go on. -/
inductive Fault
  /-- The index is too large for a reference. -/
  | indexTooLarge (index : Nat)
  /-- A reference was used with another generation than its own. -/
  | wrongGeneration (ref : Ref) (serial : Nat)
  /-- Two values of different types met under one attribute name. -/
  | attributeType (kind : String)
  /-- A required attribute is not on the node. -/
  | attributeMissing (kind : String) (ref : Ref)
  /-- A required attribute is not on the root. -/
  | rootAttributeMissing (kind root : String)
  /-- A node was given a child that has no slot. -/
  | childPastEnd (child : Ref)
  /-- A node was put into a slot that does not exist. -/
  | neverReserved (ref : Ref)
  /-- A node was put into a slot that has one. -/
  | definedTwice (ref : Ref)
  /-- A root name was bound to a second node. -/
  | rootBound (root : String) (bound : Ref)
  /-- A reserved slot was still empty when the graph was frozen. -/
  | unresolved (ref : Ref)
  /-- The node at `index` has a child outside the graph. -/
  | danglingChild (index : Nat) (child : Ref)
  /-- A root leads outside the graph. -/
  | danglingRoot (ref : Ref)
  /-- The generation has no node at this index. -/
  | noSuchNode (index serial : Nat)
  /-- A table of `size` entries was read at `index`. -/
  | pastEnd (size index : Nat)
  /-- A replacement group has no members. -/
  | emptyGroup (group : Nat)
  /-- A node is a member of two replacement groups. -/
  | groupOverlap (member : Ref) (first second : Nat)
  /-- A node that others are folded into is itself folded into another. -/
  | targetSubstituted (target : Ref)
  /-- A substitution had to fold a node into an existing one. -/
  | substitutionForwarded (title : String)
  /-- A rebuild ended while slots reserved for a cycle were open. -/
  | placeholdersLeft
  /-- Indirections lead to each other in a circle. -/
  | indirectionCycle
  /-- An edge leads to something that is no vertex. -/
  | strayEdge (target origin : String)
  /-- Something that is no vertex was asked for. -/
  | notAVertex (vertex : String)
deriving DecidableEq

namespace Fault

/-- What a fault says. -/
def description : Fault → String
  | indexTooLarge index => s!"type index {index} does not fit a type reference"
  | wrongGeneration ref serial =>
    s!"type reference {ref.text} used with graph generation {serial}"
  | attributeType kind => "attribute `" ++ kind ++ "` holds a value of the wrong type"
  | attributeMissing kind ref => "attribute `" ++ kind ++ "` missing on type " ++ ref.text
  | rootAttributeMissing kind root =>
    "attribute `" ++ kind ++ "` missing on top-level `" ++ root ++ "`"
  | childPastEnd child => s!"child {child.text} points past the end of the graph"
  | neverReserved ref => s!"type {ref.text} was never reserved"
  | definedTwice ref => s!"type {ref.text} defined twice"
  | rootBound root bound => "top-level `" ++ root ++ "` already bound to " ++ bound.text
  | unresolved ref => s!"forwarding reference {ref.text} never resolved"
  | danglingChild index child => s!"type #{index} has dangling child {child.text}"
  | danglingRoot ref => s!"dangling top-level {ref.text}"
  | noSuchNode index serial => s!"no type #{index} in generation {serial}"
  | pastEnd size index => s!"index out of bounds: the len is {size} but the index is {index}"
  | emptyGroup group => s!"replacement group {group} is empty"
  | groupOverlap member first second =>
    s!"type {member.text} is in replacement groups {first} and {second}"
  | targetSubstituted target => s!"remap target {target.text} is itself remapped"
  | substitutionForwarded title => "remap `" ++ title ++ "` needed a forwarding intersection"
  | placeholdersLeft => "placeholders left after rewrite"
  | indirectionCycle => "cycle of indirection intersections"
  | strayEdge target origin => s!"successor {target} of {origin} is not a graph node"
  | notAVertex vertex => s!"{vertex} is not a graph node"

/-- Whether a fault is one of the library's own checks; the others are a table read past its
end. -/
def isInternal : Fault → Bool
  | pastEnd .. => false
  | _ => true

/-- The text of a fault. -/
def message (f : Fault) : String :=
  if f.isInternal then "internal error: " ++ f.description else f.description

end Fault

/-! ### Computations that may meet a fault -/

section Computations

variable {α β : Type} {x : Except Fault α} {b : β}

/-- A computation that went on with `k` to a result had a result to go on with. -/
theorem exists_of_bind_eq_ok {k : α → Except Fault β} (h : x >>= k = .ok b) :
    ∃ a, x = .ok a ∧ k a = .ok b := by
  cases x with
  | error f => cases h
  | ok a => exact ⟨a, rfl, h⟩

theorem exists_of_map_eq_ok {k : α → β} (h : x.map k = .ok b) : ∃ a, x = .ok a ∧ k a = b := by
  cases x with
  | error f => cases h
  | ok a => exact ⟨a, rfl, Except.ok.inj h⟩

end Computations

/-! ### Checks on references -/

namespace Ref

/-- The reference to `index` in generation `serial`; an index has to be below
`SchemaGraph.Ref.limit`. -/
def ofIndex (serial index : Nat) : Except Fault Ref :=
  if index < limit then .ok ⟨serial, index⟩ else .error (.indexTooLarge index)

/-- Passes if the reference belongs to generation `serial`. -/
def requireSerial (r : Ref) (serial : Nat) : Except Fault Unit :=
  if r.serial = serial then .ok () else .error (.wrongGeneration r serial)

end Ref

end SchemaGraph
