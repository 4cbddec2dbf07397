import SchemaGraph.Proofs.Digraph.Duality
import SchemaGraph.Proofs.Reachability

/-!
# The walk as a recursive search

The walk of a generation keeps a stack of nodes that it has still to look at, where a node may stand
several times, and marks a node when it comes to the top. It lists the nodes in the order in which the
recursive search meets them (`SchemaGraph.Generation.reachable_recursive`): the search that takes the
roots one after the other and the children of a node in their order, and remembers throughout what it
has seen.

What is on the stack is what the suspended calls of the recursion have still to look at: in front the
candidates of the innermost call, behind them those of the calls around it. This is the invariant
(`SchemaGraph.Generation.walk_append`); it holds because the walk comes to the rest of a stack with
the same nodes unseen as the call that returns to it.

A third way to the list is the search of the graph of dependencies, which has every edge once and no
vertices but what can be reached. Neither makes a difference to the course of a search
(`SchemaGraph.Explored.eraseDups`, `SchemaGraph.Explored.transfer`).
-/

namespace SchemaGraph

namespace Generation

variable {g : Generation} {r root : Ref} {unseen candidates rest : List Ref} {forest : List (Tree Ref)}

/-! ### References and their indices -/

theorem map_index_map_refAt (indices : List Nat) : (indices.map g.refAt).map Ref.index = indices := by
  simp [Function.comp_def, refAt]

theorem map_refAt_map_index (h : ∀ r ∈ unseen, g.Owns r) :
    (unseen.map Ref.index).map g.refAt = unseen := by
  rw [List.map_map]
  exact (List.map_congr_left fun r hr => (h r hr).eq_refAt.symm).trans (List.map_id unseen)

theorem mem_map_index_iff (h : ∀ r ∈ unseen, g.Owns r) (hr : g.Owns r) :
    r.index ∈ unseen.map Ref.index ↔ r ∈ unseen := by
  refine ⟨fun hmem => ?_, List.mem_map_of_mem⟩
  obtain ⟨s, hs, heq⟩ := List.mem_map.1 hmem
  exact (h s hs).eq_of_index_eq hr heq ▸ hs

theorem map_index_erase (h : ∀ r ∈ unseen, g.Owns r) (hr : g.Owns r) :
    (unseen.erase r).map Ref.index = (unseen.map Ref.index).erase r.index := by
  conv_lhs => rw [← map_refAt_map_index h, hr.eq_refAt]
  rw [← List.map_erase g.refAt_injective, map_index_map_refAt]

/-! ### The stack and the calls -/

/-- **The stack holds what suspended calls have still to look at**: the walk of some candidates in front
of a stack lists what the search of the candidates meets, and goes on with the stack. -/
theorem walk_append (h : Explored (fun r => g.childrenAt r.index) unseen candidates forest rest)
    (hunseen : ∀ r ∈ unseen, g.Owns r) (hcandidates : ∀ r ∈ candidates, g.Owns r) (stack : List Ref) :
    g.walk (unseen.map Ref.index) (candidates ++ stack) =
      preorderAll forest ++ g.walk (rest.map Ref.index) stack := by
  induction h generalizing stack with
  | nil => rfl
  | @seen unseen candidates rest forest v hv _ ih =>
    obtain ⟨hown, hcandidates⟩ := List.forall_mem_cons.1 hcandidates
    rw [List.cons_append, walk, if_neg (mt (mem_map_index_iff hunseen hown).1 hv)]
    exact ih hunseen hcandidates stack
  | @enter unseen between candidates rest branches forest v hv hbelow hrest ih ih' =>
    obtain ⟨hown, hcandidates⟩ := List.forall_mem_cons.1 hcandidates
    have herase : ∀ r ∈ unseen.erase v, g.Owns r := fun r hr => hunseen r (List.mem_of_mem_erase hr)
    have hbetween : ∀ r ∈ between, g.Owns r := fun r hr => herase r (hbelow.sublist.subset hr)
    have hchildren := ih herase (fun c => owns_of_mem_childrenAt) (candidates ++ stack)
    rw [List.cons_append, walk, if_pos ((mem_map_index_iff hunseen hown).2 hv),
      ← map_index_erase hunseen hown, hchildren, ih' hbetween hcandidates stack]
    simp [preorderAll, Tree.preorder]

/-- The forest of the recursive search from the roots. -/
def searchForest (g : Generation) : List (Tree Ref) :=
  spanningForest (fun r => g.childrenAt r.index) g.refs g.roots.values

theorem explored_searchForest : ∃ rest,
    Explored (fun r => g.childrenAt r.index) g.refs g.roots.values g.searchForest rest :=
  ⟨_, explored_grow _ (Nat.le_refl _)⟩

theorem reachable_eq_preorderAll : g.reachable = preorderAll g.searchForest := by
  obtain ⟨rest, hexplored⟩ := g.explored_searchForest
  have hwalk := walk_append hexplored (fun r => mem_refs_iff.1) (fun r => owns_of_mem_values) []
  have hrefs : g.refs.map Ref.index = List.range g.size := map_index_map_refAt _
  rwa [List.append_nil, walk, List.append_nil, hrefs] at hwalk

/-! ### The search of the dependencies -/

/-- **From a single root, the search of the dependencies lists the nodes in the order of the walk.** -/
theorem preorder_dependencies (hroot : g.roots.values.eraseDups = [root]) :
    ∃ d, g.dependencies = .ok d ∧ d.preorder root = .ok g.reachable := by
  let d := Digraph.ofClosed g.reachable (fun r => g.childrenAt r.index) reachable_closed
  have hvertex : ∀ {r}, r ∈ d.nodes ↔ g.Reaches r := List.mem_eraseDups.trans mem_reachable_iff
  have hnext : ∀ r, g.Reaches r → d.next r = (g.childrenAt r.index).eraseDups := fun r hr =>
    Digraph.next_ofClosed (mem_reachable_iff.2 hr)
  have hreaches : ∀ r ∈ [root], g.Reaches r := fun r hr =>
    reaches_of_mem_values (List.mem_eraseDups.1 (hroot ▸ hr))
  -- the recursive search, without repeated candidates and among the reachable nodes only
  obtain ⟨rest, hexplored⟩ := g.explored_searchForest
  have hdistinct := hexplored.eraseDups nodup_refs [] nofun
  rw [List.filter_eq_self.2 (by simp), hroot] at hdistinct
  have hcourse : ∃ rest', Explored d.next d.nodes [root] g.searchForest rest' ∧
      ∀ r, g.Reaches r → (r ∈ rest' ↔ r ∈ rest) := by
    refine hdistinct.transfer nodup_refs d.nodes_nodup hnext (fun r hr c hc => ?_) hreaches
      fun r hr => ?_
    · exact hr.of_mem_childrenAt (List.mem_eraseDups.1 hc)
    · rw [hvertex, mem_refs_iff]
      exact iff_of_true hr hr.owns
  obtain ⟨rest', hcourse, -⟩ := hcourse
  obtain ⟨hforest, -⟩ := hcourse.unique (d.explored_spanningForest d.next [root])
  refine ⟨d, Digraph.ofSuccessors_eq_ok reachable_closed false, ?_⟩
  rw [Digraph.preorder_eq_ok (hvertex.2 (hreaches root (List.mem_singleton_self root))),
    reachable_eq_preorderAll, hforest, Digraph.preorderFrom]

/-! ### Three ways to one list -/

theorem mem_matching_iff {p : Node → Bool} :
    r ∈ g.matching p ↔ r ∈ g.reachable ∧ ∃ node, g.get r = .ok node ∧ p node = true := by
  rw [matching, List.mem_filter]
  refine and_congr_right fun hr => ?_
  have hown := (mem_reachable_iff.1 hr).owns
  obtain ⟨node, hn⟩ := hown.exists_node
  simp [hn, hown.get_eq_ok hn]

/-- **The walk is the recursive search.** For every generation, with whatever cycles, there is a course
of the search that takes the roots in their order, the children of each node in theirs, and shares what
it has seen; the walk lists the nodes as this search meets them. These are the nodes that the roots
reach, each once, and those that satisfy a predicate are listed in the same order. If all roots are one
node, the search of the dependencies from there lists the same. -/
theorem reachable_recursive (g : Generation) :
    (∃ rest, Explored (fun r => g.childrenAt r.index) g.refs g.roots.values g.searchForest rest) ∧
      g.reachable = preorderAll g.searchForest ∧
      (g.reachable.Nodup ∧ ∀ r, r ∈ g.reachable ↔ g.Reaches r) ∧
      (∀ p : Node → Bool, (g.matching p).Sublist g.reachable ∧ ∀ r, r ∈ g.matching p ↔
        r ∈ g.reachable ∧ ∃ node, g.get r = .ok node ∧ p node = true) ∧
      ∀ root, g.roots.values.eraseDups = [root] →
        ∃ d, g.dependencies = .ok d ∧ d.preorder root = .ok g.reachable :=
  ⟨g.explored_searchForest, reachable_eq_preorderAll, ⟨nodup_reachable, fun _ => mem_reachable_iff⟩,
    fun _ => ⟨List.filter_sublist, fun _ => mem_matching_iff⟩, fun _ => preorder_dependencies⟩

/-- A class that has itself and an array of itself as properties, each of them twice, and another class
below; the array is also below that one. -/
def knotted : Generation where
  options := ⟨false⟩
  nodes := #[
    .object [⟨"self", ⟨0, 0⟩, true⟩, ⟨"far", ⟨0, 2⟩, false⟩, ⟨"all", ⟨0, 1⟩, false⟩,
      ⟨"again", ⟨0, 2⟩, false⟩],
    .array ⟨0, 0⟩,
    .object [⟨"all", ⟨0, 1⟩, false⟩, ⟨"back", ⟨0, 0⟩, true⟩]]
  store := .empty 0
  roots := .ofList [("first", ⟨0, 0⟩), ("second", ⟨0, 0⟩)]
  announced := false
  children_inBounds := by decide
  roots_inBounds := by decide

/-- The array is met below the second class, before its turn as a property of the first one. -/
theorem reachable_recursive_knotted :
    knotted.reachable = [⟨0, 0⟩, ⟨0, 2⟩, ⟨0, 1⟩] ∧
      ∃ d, knotted.dependencies = .ok d ∧ d.preorder ⟨0, 0⟩ = .ok [⟨0, 0⟩, ⟨0, 2⟩, ⟨0, 1⟩] := by
  obtain ⟨-, hforest, -, -, hsearch⟩ := reachable_recursive knotted
  have hreachable : knotted.reachable = [⟨0, 0⟩, ⟨0, 2⟩, ⟨0, 1⟩] := hforest.trans (by decide)
  exact ⟨hreachable, hreachable ▸ hsearch ⟨0, 0⟩ (by decide)⟩

end Generation

end SchemaGraph
