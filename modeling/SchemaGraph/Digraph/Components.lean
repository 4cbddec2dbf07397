import SchemaGraph.Digraph.Basic

/-!
# Strongly connected components

Two vertices are in one component if each can be reached from the other. The components are
listed with dependencies first (`SchemaGraph.Digraph.components`): a component comes after
every other component that its vertices lead to.

Two searches of the whole graph find them. The first one takes the youngest edge of a vertex
first; when it leaves the last vertex of a component, it has left all that the component leads
to. The second one goes against the edges and starts at the vertices that were left last: what
leads to such a vertex without being in its component belongs to a component that was left
later, so the second search has met it already. Each of its trees is therefore a component, and
the last tree is the component that depends on nothing.
-/

namespace SchemaGraph.Digraph

variable {α : Type} [DecidableEq α]

/-- The vertices in the order in which a search of the whole graph leaves them, if it takes
the youngest edge of a vertex first. -/
def finishingOrder (g : Digraph α) : List α :=
  postorderAll (spanningForest (fun v => (g.next v).reverse) g.nodes g.nodes)

/-- The strongly connected components, dependencies first. The vertices of a component keep
the order of the graph. -/
def components (g : Digraph α) : List (List α) :=
  (spanningForest g.invert.next g.nodes g.finishingOrder.reverse).reverse.map fun tree =>
    let members := tree.preorder
    g.nodes.filter (· ∈ members)

/-- Whether some vertex can be reached from one of its successors. A search leaves the end of
an edge before its start, unless the edge lies on a cycle. -/
def isCyclic (g : Digraph α) : Bool :=
  let order := g.finishingOrder
  g.edges.any fun (v, w) => order.idxOf v ≤ order.idxOf w

end SchemaGraph.Digraph
