/-!
# Spanning forests

A depth-first search, as the forest of the edges it follows (`SchemaGraph.spanningForest`):
every node hangs below the node from which the search first came to it. The orders in which
a search meets and leaves the nodes are the two readings of that forest,
`SchemaGraph.Tree.preorder` and `SchemaGraph.Tree.postorder`.

The search carries the list of the nodes it has not seen. A node is taken off that list when
the search enters it, so the search never runs below more nodes than the graph has, and that
number bounds its recursion.
-/

namespace SchemaGraph

/-- A rose tree. -/
inductive Tree (α : Type)
  | node (root : α) (branches : List (Tree α))

mutual

/-- The nodes of a tree, each before the nodes below it. -/
def Tree.preorder {α : Type} : Tree α → List α
  | .node root branches => root :: preorderAll branches

/-- The nodes of a forest, each before the nodes below it. -/
def preorderAll {α : Type} : List (Tree α) → List α
  | [] => []
  | tree :: rest => tree.preorder ++ preorderAll rest

end

mutual

/-- The nodes of a tree, each after the nodes below it. -/
def Tree.postorder {α : Type} : Tree α → List α
  | .node root branches => postorderAll branches ++ [root]

/-- The nodes of a forest, each after the nodes below it. -/
def postorderAll {α : Type} : List (Tree α) → List α
  | [] => []
  | tree :: rest => tree.postorder ++ postorderAll rest

end

/-! ### Growing the forest -/

section Search

variable {α : Type} [DecidableEq α]

/-- Grow a tree at every candidate that is still unseen when its turn comes. `below` grows
the branches of a node that was just entered. The result is the forest and the nodes that
stay unseen. -/
def growEach (below : List α → α → List (Tree α) × List α) :
    List α → List α → List (Tree α) × List α
  | unseen, [] => ([], unseen)
  | unseen, v :: rest =>
    if v ∈ unseen then
      let (branches, unseen) := below (unseen.erase v) v
      let (trees, unseen) := growEach below unseen rest
      (.node v branches :: trees, unseen)
    else growEach below unseen rest

/-- The forest that a search grows from candidates, and the nodes that stay unseen. `depth`
is at least the number of unseen nodes. -/
def grow (next : α → List α) : (depth : Nat) → List α → List α → List (Tree α) × List α
  | 0, unseen, _ => ([], unseen)
  | depth + 1, unseen, candidates =>
    growEach (fun unseen v => grow next depth unseen (next v)) unseen candidates

/-- The forest of a depth-first search over `nodes` from `roots`, which takes the successors
of a node in the order of `next`. -/
def spanningForest (next : α → List α) (nodes roots : List α) : List (Tree α) :=
  (grow next nodes.length nodes roots).1

end Search

example : preorderAll (spanningForest (fun n => [n + 1, n / 2]) [0, 1, 2, 3, 4] [3]) =
    [3, 4, 2, 1, 0] := by decide

end SchemaGraph
