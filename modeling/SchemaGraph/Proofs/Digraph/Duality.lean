import SchemaGraph.Proofs.Digraph.Orders

/-!
# A graph and its inverse

The graph of some vertices and their successors, and the same graph with every edge turned round, are
two views of one relation (`SchemaGraph.Digraph.ofSuccessors_dual`): what is a successor in the one is
an origin in the other, so that a vertex without successors in the one is a root of the other, what can
be reached in the one is what leads here in the other, and both have the same components.

Only the order of successors is not symmetric. In the graph as it is given a vertex has its successors
in the order in which they were given (`SchemaGraph.Digraph.next_ofClosed`); in the inverse it has its
origins in the order of the vertices (`SchemaGraph.Digraph.next_invert_ofClosed`).
-/

namespace SchemaGraph

/-- Going against the edges leads from the end of a path to its start. -/
theorem leads_against_iff {α : Type} {next prev : α → List α}
    (hprev : ∀ {v w}, v ∈ prev w ↔ w ∈ next v) {v w : α} : Leads prev v w ↔ Leads next w v := by
  have hstep : (fun v w => w ∈ prev v) = Function.swap fun v w => w ∈ next v := by
    funext v w
    exact propext hprev
  rw [Leads, hstep]
  exact Relation.reflTransGen_swap

/-- At most one entry of a list without repeats is the given one. -/
theorem filter_eq_of_nodup {α : Type} [DecidableEq α] {as : List α} (h : as.Nodup) (a : α) :
    as.filter (· = a) = if a ∈ as then [a] else [] := by
  have hfilter : as.filter (· = a) = List.replicate (as.count a) a := List.filter_beq a
  rw [hfilter, h.count]
  split <;> rfl

namespace Digraph

variable {α : Type} [DecidableEq α] {g h : Digraph α} {vertices : List α} {successors : α → List α}
  {v w : α} {group : List α}

/-! ### The successors of a vertex -/

theorem nodup_edgesFrom_eraseDups (vertices : List α) (successors : α → List α) :
    (edgesFrom vertices.eraseDups successors).Nodup :=
  nodup_edgesFrom (nodup_eraseDups vertices) successors

theorem mem_eraseDups_of_mem_edgesFrom (hclosed : ∀ v ∈ vertices, ∀ w ∈ successors v, w ∈ vertices)
    {e : α × α} (he : e ∈ edgesFrom vertices.eraseDups successors) :
    e.1 ∈ vertices.eraseDups ∧ e.2 ∈ vertices.eraseDups := by
  obtain ⟨hv, hw⟩ := mem_edgesFrom.1 he
  exact ⟨hv, List.mem_eraseDups.2 (hclosed e.1 (List.mem_eraseDups.1 hv) e.2 hw)⟩

/-- The graph of vertices that have only each other as successors. -/
def ofClosed (vertices : List α) (successors : α → List α)
    (hclosed : ∀ v ∈ vertices, ∀ w ∈ successors v, w ∈ vertices) : Digraph α where
  nodes := vertices.eraseDups
  edges := edgesFrom vertices.eraseDups successors
  nodes_nodup := nodup_eraseDups vertices
  edges_nodup := nodup_edgesFrom_eraseDups vertices successors
  mem_of_mem_edges := fun _ => mem_eraseDups_of_mem_edgesFrom hclosed

variable {hclosed : ∀ v ∈ vertices, ∀ w ∈ successors v, w ∈ vertices}

/-- No edge is missed when such a graph is asked for. -/
theorem ofSuccessors_eq_ok [Labelled α]
    (hclosed : ∀ v ∈ vertices, ∀ w ∈ successors v, w ∈ vertices) (inverted : Bool) :
    ofSuccessors vertices inverted successors =
      .ok (if inverted then (ofClosed vertices successors hclosed).invert
        else ofClosed vertices successors hclosed) := by
  unfold ofSuccessors
  dsimp only
  split
  · next v w hfind =>
    have hnot := List.find?_some hfind
    have hmem := (ofClosed vertices successors hclosed).mem_of_mem_edges _
      (List.mem_of_find?_eq_some hfind)
    exact absurd hmem.2 (of_decide_eq_true hnot)
  · rfl

theorem edgesFrom_cons {nodes : List α} :
    edgesFrom (v :: nodes) successors =
      (successors v).eraseDups.map (v, ·) ++ edgesFrom nodes successors :=
  List.flatMap_cons

/-- A vertex has its successors in their order, without the later copies. -/
theorem next_ofClosed (hv : v ∈ vertices) :
    (ofClosed vertices successors hclosed).next v = (successors v).eraseDups := by
  have hedges : ∀ {nodes : List α}, nodes.Nodup → v ∈ nodes →
      ((edgesFrom nodes successors).filter (·.1 = v)).map Prod.snd = (successors v).eraseDups := by
    intro nodes hnd hv
    induction nodes with
    | nil => simp at hv
    | cons u nodes ih =>
      obtain ⟨hu, hnd⟩ := List.nodup_cons.1 hnd
      rw [edgesFrom_cons, List.filter_append, List.map_append, List.filter_map]
      by_cases huv : u = v
      · subst huv
        have hrest : (edgesFrom nodes successors).filter (·.1 = u) = [] :=
          List.filter_eq_nil_iff.2 fun (x, y) he => by
            have hx : x ≠ u := fun heq => hu (heq ▸ (mem_edgesFrom.1 he).1)
            simpa using hx
        simp [hrest, Function.comp_def]
      · rw [ih hnd ((List.mem_cons.1 hv).resolve_left (Ne.symm huv))]
        simp [Function.comp_def, huv]
  exact hedges (nodup_eraseDups vertices) (List.mem_eraseDups.2 hv)

/-- In the inverse a vertex has its origins in the order of the vertices. -/
theorem next_invert_ofClosed :
    (ofClosed vertices successors hclosed).invert.next v =
      vertices.eraseDups.filter (v ∈ successors ·) := by
  have hedges : ∀ nodes : List α, (((edgesFrom nodes successors).map Prod.swap).filter
      (·.1 = v)).map Prod.snd = nodes.filter (v ∈ successors ·) := by
    intro nodes
    induction nodes with
    | nil => rfl
    | cons u nodes ih =>
      rw [edgesFrom_cons, List.map_append, List.filter_append, List.map_append, ih, List.map_map,
        List.filter_map, List.map_map]
      -- among the edges from `u`, at most one leads to `v`
      have hone : (successors u).eraseDups.filter (· = v) = if v ∈ successors u then [v] else [] := by
        simpa only [List.mem_eraseDups] using filter_eq_of_nodup (nodup_eraseDups (successors u)) v
      have hhere : ∀ x, ((fun e : α × α => decide (e.1 = v)) ∘ Prod.swap ∘ (u, ·)) x =
          decide (x = v) := fun _ => rfl
      rw [List.filter_congr fun x _ => hhere x, hone, List.filter_cons]
      by_cases huv : v ∈ successors u <;> simp [huv]
  exact hedges vertices.eraseDups

theorem successors_eq_ok [Labelled α] (hv : v ∈ g.nodes) : g.successors v = .ok (g.next v) := by
  rw [Digraph.successors, requireVertex, if_pos hv]
  rfl

/-- No successor is listed twice. -/
theorem nodup_next : (g.next v).Nodup := by
  refine List.Nodup.map_on (fun e he f hf heq => ?_) (g.edges_nodup.filter _)
  have he' := of_decide_eq_true (List.mem_filter.1 he).2
  have hf' := of_decide_eq_true (List.mem_filter.1 hf).2
  exact Prod.ext (he'.trans hf'.symm) heq

/-! ### Roots -/

omit [DecidableEq α] in
theorem invert_invert : g.invert.invert = g := by
  simp [invert]

/-- The roots of the inverse are the vertices without successors. -/
theorem roots_invert : g.invert.roots = g.nodes.filter (g.next · = []) := by
  refine List.filter_congr fun v _ => ?_
  rw [Bool.eq_iff_iff, decide_eq_true_iff, List.all_eq_true, next, List.map_eq_nil_iff,
    List.filter_eq_nil_iff]
  refine List.forall_mem_map.trans (forall₂_congr fun e _ => ?_)
  simp

/-! ### Paths and components -/

theorem leads_invert_iff : Leads g.invert.next v w ↔ Leads g.next w v :=
  leads_against_iff mem_next_invert

theorem entwined_invert_iff : Entwined g.invert.next v w ↔ Entwined g.next v w := by
  rw [Entwined, leads_invert_iff, leads_invert_iff]
  exact and_comm

/-- A component is what it is by its vertices and by what leads to what. -/
theorem mem_components_of_same (hnodes : g.nodes = h.nodes)
    (hentwined : ∀ {v w}, Entwined g.next v w ↔ Entwined h.next v w) (hgroup : group ∈ g.components) :
    group ∈ h.components := by
  obtain ⟨tree, -, v, hv, hclass, rfl⟩ := exists_tree_of_mem_components hgroup
  obtain ⟨group', hgroup', hv'⟩ := exists_mem_components (hnodes ▸ hv)
  obtain ⟨tree', -, v', -, hclass', rfl⟩ := exists_tree_of_mem_components hgroup'
  have hclasses : ∀ x, x ∈ tree.preorder ↔ x ∈ tree'.preorder := fun x => by
    have hvv' := (hclass' v).1 (of_decide_eq_true (List.mem_filter.1 hv').2)
    rw [hclass, hclass', hentwined]
    exact ⟨hvv'.trans, hvv'.symm.trans⟩
  rw [hnodes, List.filter_congr fun x _ => decide_eq_decide.2 (hclasses x)]
  exact hgroup'

theorem nodup_components : g.components.Nodup := by
  refine components_pairwise.imp_of_mem fun {group group'} hgroup _ hnot => ?_
  rintro rfl
  obtain ⟨v, hv, -⟩ := isClass_of_mem_components hgroup
  exact hnot v hv v hv .refl

theorem components_invert_perm : g.invert.components.Perm g.components := by
  refine (List.perm_ext_iff_of_nodup nodup_components nodup_components).2 fun group => ?_
  exact ⟨mem_components_of_same rfl entwined_invert_iff,
    mem_components_of_same rfl entwined_invert_iff.symm⟩

/-! ### The two graphs -/

/-- What a graph and its inverse say of each other. -/
structure Dual [Labelled α] (vertices : List α) (successors : α → List α) (d e : Digraph α) : Prop where
  /-- Both have the vertices in the order of their first occurrences. -/
  nodes_eq : d.nodes = vertices.eraseDups ∧ e.nodes = vertices.eraseDups
  /-- The successors in the one are the origins in the other. -/
  mem_next_iff : ∀ v w, w ∈ d.next v ↔ v ∈ e.next w
  /-- Nothing is listed twice, however often an edge was given. -/
  nodup_next : ∀ v, (d.next v).Nodup ∧ (e.next v).Nodup
  /-- In the graph, successors are in the order in which they were given first. -/
  successors_eq : ∀ v ∈ vertices, d.successors v = .ok (d.next v) ∧ d.next v = (successors v).eraseDups
  /-- In the inverse, they are in the order of the vertices where their edges started. -/
  origins_eq : ∀ v ∈ vertices, e.successors v = .ok (e.next v) ∧
    e.next v = vertices.eraseDups.filter (v ∈ successors ·)
  /-- The roots of either are the vertices without successors in the other. -/
  roots_eq : e.roots = d.nodes.filter (d.next · = []) ∧ d.roots = e.nodes.filter (e.next · = [])
  /-- What a search of the inverse finds is what leads to its start. -/
  search_iff : ∀ v ∈ vertices, ∃ met left, e.preorder v = .ok met ∧ e.postorder v = .ok left ∧
    ∀ x, (x ∈ met ↔ Leads d.next x v) ∧ (x ∈ left ↔ Leads d.next x v)
  /-- Both have the same components. -/
  components_perm : d.components.Perm e.components
  /-- These are the classes of vertices that lead to each other. -/
  isClass : ∀ group ∈ d.components, ∃ v ∈ group, ∀ w, w ∈ group ↔ Leads d.next v w ∧ Leads d.next w v

/-- **A graph and its inverse say the same from opposite ends.** The vertices have only each other as
successors; it does not matter how often each of them is listed and each edge is given. -/
theorem ofSuccessors_dual [Labelled α] (vertices : List α) (successors : α → List α)
    (hclosed : ∀ v ∈ vertices, ∀ w ∈ successors v, w ∈ vertices) :
    ∃ d e : Digraph α, ofSuccessors vertices false successors = .ok d ∧
      ofSuccessors vertices true successors = .ok e ∧ Dual vertices successors d e := by
  let d := ofClosed vertices successors hclosed
  have hvertex : ∀ {v}, v ∈ vertices → v ∈ d.nodes := List.mem_eraseDups.2
  have hroots : d.roots = d.invert.nodes.filter (d.invert.next · = []) := by
    rw [← roots_invert, invert_invert]
  refine ⟨d, d.invert, ofSuccessors_eq_ok hclosed false, ofSuccessors_eq_ok hclosed true,
    { nodes_eq := ⟨rfl, rfl⟩
      mem_next_iff := fun v w => mem_next_invert.symm
      nodup_next := fun v => ⟨nodup_next, nodup_next⟩
      successors_eq := fun v hv => ⟨successors_eq_ok (hvertex hv), next_ofClosed hv⟩
      origins_eq := fun v hv => ⟨successors_eq_ok (hvertex hv), next_invert_ofClosed⟩
      roots_eq := ⟨roots_invert, hroots⟩
      search_iff := fun v hv => ?_
      components_perm := components_invert_perm.symm
      isClass := fun group hgroup => isClass_of_mem_components hgroup }⟩
  refine ⟨_, _, preorder_eq_ok (hvertex hv), postorder_eq_ok (hvertex hv), fun x => ?_⟩
  rw [← leads_invert_iff]
  exact ⟨mem_preorderFrom_iff (hvertex hv), mem_postorderFrom_iff (hvertex hv)⟩

/-- A vertex that leads to itself, to two on a cycle, and to one of them twice; the cycle leads to a
vertex without successors. -/
def tangled : Nat → List Nat
  | 0 => [1, 3]
  | 1 => [0]
  | 2 => [1, 1, 2, 0]
  | _ => []

/-- In the inverse the edges come in the order of the vertices, and once; the last vertex is the only
root there, and nothing but the first vertex leads to it. -/
theorem ofSuccessors_dual_tangled : ∃ d e : Digraph Nat,
    ofSuccessors [2, 0, 1, 0, 3] false tangled = .ok d ∧
    ofSuccessors [2, 0, 1, 0, 3] true tangled = .ok e ∧ d.successors 2 = .ok [1, 2, 0] ∧
    e.successors 1 = .ok [2, 0] ∧ e.roots = [3] ∧
    ∃ met, e.preorder 2 = .ok met ∧ ∀ x, x ∈ met ↔ x = 2 := by
  obtain ⟨d, e, hd, he, hdual⟩ := ofSuccessors_dual [2, 0, 1, 0, 3] tangled (by decide)
  have hsuccessors : ∀ v ∈ [2, 0, 1, 0, 3], d.next v = (tangled v).eraseDups := fun v hv =>
    (hdual.successors_eq v hv).2
  have horigins : ∀ v ∈ [2, 0, 1, 0, 3], e.next v = [2, 0, 1, 3].filter (v ∈ tangled ·) := fun v hv =>
    (hdual.origins_eq v hv).2
  refine ⟨d, e, hd, he, ?_, ?_, ?_, ?_⟩
  · rw [(hdual.successors_eq 2 (by decide)).1, hsuccessors 2 (by decide)]
    rfl
  · rw [(hdual.origins_eq 1 (by decide)).1, horigins 1 (by decide)]
    rfl
  · have hnodes : d.nodes = [2, 0, 1, 3] := hdual.nodes_eq.1
    have hsame : ∀ v ∈ [2, 0, 1, 3], decide (d.next v = []) = decide ((tangled v).eraseDups = []) :=
      fun v hv => by rw [hsuccessors v (by revert v; decide)]
    rw [hdual.roots_eq.1, hnodes, List.filter_congr hsame]
    decide
  · obtain ⟨met, left, hmet, -, hmem⟩ := hdual.search_iff 2 (by decide)
    refine ⟨met, hmet, fun x => (hmem x).1.trans ⟨fun hx => ?_, fun hx => hx ▸ .refl⟩⟩
    -- the last edge of a path to `2` starts at `2`
    induction hx using Relation.ReflTransGen.head_induction_on with
    | refl => rfl
    | head hstep _ ih =>
      subst ih
      rw [hdual.mem_next_iff, horigins 2 (by decide)] at hstep
      simpa [tangled] using hstep

end Digraph

end SchemaGraph
