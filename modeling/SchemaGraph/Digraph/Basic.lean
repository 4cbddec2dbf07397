import SchemaGraph.Digraph.Forest
import SchemaGraph.Fault

/-!
# Directed graphs

A directed graph over a list of vertices (`SchemaGraph.Digraph`), for what is asked of nodes
as such: in which order a search meets them, and which of them depend on each other. The
vertices keep their order, and so do the edges: an edge stands where it first came in, once
however often it was given, and the successors of a vertex are listed in the order of its
edges.

`SchemaGraph.Digraph.ofSuccessors` takes the edges vertex by vertex, and can also turn every
edge round (`SchemaGraph.Digraph.invert`). The successors of a vertex of an inverted graph
then stand in the order of the vertices.
-/

namespace SchemaGraph

/-- Things that have a name in messages. -/
class Labelled (α : Type) where
  label : α → String

instance : Labelled Ref := ⟨Ref.text⟩

instance : Labelled Nat := ⟨Nat.repr⟩

/-- A directed graph. -/
structure Digraph (α : Type) where
  /-- The vertices, in their order. -/
  nodes : List α
  /-- The edges, in the order in which they came in: where each starts and where it leads. -/
  edges : List (α × α)
  nodes_nodup : nodes.Nodup
  edges_nodup : edges.Nodup
  mem_of_mem_edges : ∀ e ∈ edges, e.1 ∈ nodes ∧ e.2 ∈ nodes

namespace Digraph

variable {α : Type} [DecidableEq α]

theorem nodup_eraseDups : (as : List α) → as.eraseDups.Nodup
  | [] => by simp
  | a :: as => by
    rw [List.eraseDups_cons, List.nodup_cons]
    exact ⟨by simp [List.mem_eraseDups], nodup_eraseDups _⟩
termination_by as => as.length
decreasing_by exact Nat.lt_succ_of_le (List.length_filter_le ..)

/-! ### Building graphs -/

/-- The edges from some vertices to their successors, vertex by vertex. -/
def edgesFrom (nodes : List α) (successors : α → List α) : List (α × α) :=
  nodes.flatMap fun v => (successors v).eraseDups.map (v, ·)

theorem mem_edgesFrom {nodes : List α} {successors : α → List α} {v w : α} :
    (v, w) ∈ edgesFrom nodes successors ↔ v ∈ nodes ∧ w ∈ successors v := by
  simp [edgesFrom, List.mem_eraseDups]

theorem nodup_edgesFrom {nodes : List α} (h : nodes.Nodup) (successors : α → List α) :
    (edgesFrom nodes successors).Nodup := by
  refine List.pairwise_flatMap.2 ⟨fun v _ => ?_, h.imp fun {v w} hvw x hx y hy => ?_⟩
  · exact List.pairwise_map.2 <| (nodup_eraseDups (successors v)).imp fun hne heq =>
      hne (Prod.mk.inj heq).2
  · obtain ⟨-, -, rfl⟩ := List.mem_map.1 hx
    obtain ⟨-, -, rfl⟩ := List.mem_map.1 hy
    exact fun heq => hvw (Prod.mk.inj heq).1

/-- The graph with every edge turned round. -/
def invert (g : Digraph α) : Digraph α where
  nodes := g.nodes
  edges := g.edges.map Prod.swap
  nodes_nodup := g.nodes_nodup
  edges_nodup := List.pairwise_map.2 (g.edges_nodup.imp fun hne heq => hne (Prod.swap_inj.1 heq))
  mem_of_mem_edges := by
    intro e he
    obtain ⟨f, hf, rfl⟩ := List.mem_map.1 he
    exact (g.mem_of_mem_edges f hf).symm

/-- The graph of the listed vertices, each with edges to its successors, or with edges from
them if the graph is `inverted`. Every successor has to be a vertex. -/
def ofSuccessors [Labelled α] (vertices : List α) (inverted : Bool) (successors : α → List α) :
    Except Fault (Digraph α) :=
  let nodes := vertices.eraseDups
  let edges := edgesFrom nodes successors
  match h : edges.find? (·.2 ∉ nodes) with
  | some (v, w) => .error (.strayEdge (Labelled.label w) (Labelled.label v))
  | none =>
    let g : Digraph α := {
      nodes, edges
      nodes_nodup := nodup_eraseDups vertices
      edges_nodup := nodup_edgesFrom (nodup_eraseDups vertices) successors
      mem_of_mem_edges := fun (v, w) he =>
        ⟨(mem_edgesFrom.1 he).1, by simpa using List.find?_eq_none.1 h (v, w) he⟩ }
    .ok (if inverted then g.invert else g)

/-! ### Looking at graphs -/

/-- Number of vertices. -/
def size (g : Digraph α) : Nat := g.nodes.length

/-- Passes if `v` is a vertex. -/
def requireVertex [Labelled α] (g : Digraph α) (v : α) : Except Fault Unit :=
  if v ∈ g.nodes then .ok () else .error (.notAVertex (Labelled.label v))

/-- Where the edges of a vertex lead. -/
def next (g : Digraph α) (v : α) : List α := (g.edges.filter (·.1 = v)).map Prod.snd

theorem mem_next {g : Digraph α} {v w : α} : w ∈ g.next v ↔ (v, w) ∈ g.edges := by
  simp [next]

/-- The successors of a vertex, in the order of its edges. -/
def successors [Labelled α] (g : Digraph α) (v : α) : Except Fault (List α) := do
  g.requireVertex v
  return g.next v

/-- The vertices to which no edge leads. -/
def roots (g : Digraph α) : List α := g.nodes.filter fun v => g.edges.all (·.2 ≠ v)

/-- The vertices in the order in which a search from `v` meets them. -/
def preorderFrom (g : Digraph α) (v : α) : List α :=
  preorderAll (spanningForest g.next g.nodes [v])

/-- The vertices in the order in which a search from `v` leaves them. -/
def postorderFrom (g : Digraph α) (v : α) : List α :=
  postorderAll (spanningForest g.next g.nodes [v])

/-- The vertices that can be reached from `v`, as met by a search. -/
def preorder [Labelled α] (g : Digraph α) (v : α) : Except Fault (List α) := do
  g.requireVertex v
  return g.preorderFrom v

/-- The vertices that can be reached from `v`, as left by a search. -/
def postorder [Labelled α] (g : Digraph α) (v : α) : Except Fault (List α) := do
  g.requireVertex v
  return g.postorderFrom v

end Digraph

end SchemaGraph
