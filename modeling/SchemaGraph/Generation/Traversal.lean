import SchemaGraph.Digraph.Components
import SchemaGraph.Generation.Basic

/-!
# Reachable nodes

What can be reached from the roots of a generation (`SchemaGraph.Generation.reachable`), in
the order of a depth-first walk that takes roots and children in their order, and what is
read off that: named nodes, parents, and the order in which declarations can be written.
-/

namespace SchemaGraph.Generation

/-- Walk the nodes on a stack and everything below them. A node is listed the first time it
comes to the top, and its children are then put on the stack in front of the rest. -/
def walk (g : Generation) (unseen : List Nat) : List Ref → List Ref
  | [] => []
  | r :: rest =>
    if r.index ∈ unseen then
      r :: g.walk (unseen.erase r.index) (g.childrenAt r.index ++ rest)
    else g.walk unseen rest
termination_by stack => (unseen.length, stack.length)
decreasing_by
  · rename_i h
    left
    rw [List.length_erase_of_mem h]
    have := List.length_pos_of_mem h
    omega
  · right
    simp

/-- The nodes that can be reached from the roots, each once. -/
def reachable (g : Generation) : List Ref := g.walk (List.range g.size) g.roots.values

/-- The reachable nodes that satisfy `p`. -/
def matching (g : Generation) (p : Node → Bool) : List Ref :=
  g.reachable.filter fun r => (g.node? r.index).any p

/-- The reachable nodes that get names in generated code. -/
def named (g : Generation) : List Ref := g.matching Node.isNamed

/-- The named nodes, by what a renderer makes of them. -/
structure NamedNodes where
  objects : List Ref
  enums : List Ref
  unions : List Ref

/-- The reachable named nodes: classes, enums and unions. -/
def namedByKind (g : Generation) : NamedNodes where
  objects := g.matching (·.kind = .object)
  enums := g.matching (·.kind = .enum)
  unions := g.matching (·.kind = .union)

/-- The nodes that have the node at `index` as a child. -/
def parentsAt (g : Generation) (index : Nat) : SortedSet Ref :=
  .ofList (((List.range g.size).filter fun i => g.refAt index ∈ g.childrenAt i).map g.refAt)

/-- The nodes that have `r` as a child, reachable or not. -/
def parents (g : Generation) (r : Ref) : Except Fault (SortedSet Ref) := do
  r.requireSerial g.serial
  if r.index < g.size then return g.parentsAt r.index
  throw (.pastEnd g.size r.index)

/-- The reachable nodes, with an edge from each to its children. -/
def dependencies (g : Generation) : Except Fault (Digraph Ref) :=
  Digraph.ofSuccessors g.reachable false fun r => g.childrenAt r.index

/-- The named nodes in groups such that each group depends on earlier groups only. A group of
several nodes is a cycle. -/
def declarationOrder (g : Generation) : Except Fault (List (List Ref)) := do
  let isNamed (r : Ref) : Bool := (g.node? r.index).any Node.isNamed
  let groups := (← g.dependencies).components.map (·.filter isNamed)
  return groups.filter (!·.isEmpty)

/-- The provenance markers of the reachable nodes. -/
def markers (g : Generation) : Except Fault (SortedSet Nat) :=
  g.reachable.foldlM (fun found r => do
    match ← g.store.find? .provenance r with
    | some here => return found.union here
    | none => return found) ∅

end SchemaGraph.Generation
