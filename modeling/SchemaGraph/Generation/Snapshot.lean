import SchemaGraph.Generation.Basic
import SchemaGraph.Node.Format

/-!
# Snapshots

The JSON form of a whole generation (`SchemaGraph.Generation.snapshot`): the serial number,
the index of every root, and for every node its index, its name if it has one, the members
of its own JSON form, and how its attributes are shown if any are.
-/

namespace SchemaGraph.Generation

/-- The entry of a node. -/
def snapshotEntry (g : Generation) (index : Nat) (node : Node) : Except Fault Json := do
  let name ← g.nameOf (g.refAt index)
  let nameMember := match name with
    | some name => [("name", Json.string name)]
    | none => []
  let shown := (g.store.atIndex index).shown
  let attributeMember := if shown.isEmpty then [] else [("attributes", Json.ofTexts shown)]
  return .object
    (("index", .integer index) :: nameMember ++ node.jsonMembers ++ attributeMember)

/-- The JSON form of a generation. -/
def snapshot (g : Generation) : Except Fault Json := do
  let types ← g.nodes.toList.zipIdx.mapM fun (node, index) => g.snapshotEntry index node
  return .object
    [("serial", .integer g.serial),
      ("top_levels", .object (g.roots.entries.map fun (name, r) => (name, .integer r.index))),
      ("types", .array types)]

end SchemaGraph.Generation
