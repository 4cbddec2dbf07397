import SchemaGraph.Digraph.Components
import SchemaGraph.Proofs.Digraph.Search

/-!
# The strongly connected components of a graph

The components of a graph are its classes of vertices that lead to each other, and none leads to a
later one (`SchemaGraph.Digraph.isClass_of_mem_components`, `SchemaGraph.Digraph.components_pairwise`).

They are the trees of a search against the edges. The point of the proof is what lets the second
search start: among the vertices that it has not seen, the first candidate was left last by the
first search. So whatever leads to it is led back to by it
(`SchemaGraph.Explored.exists_left_after`), and its tree is its class.
-/

namespace SchemaGraph

variable {α : Type}

/-! ### Searching against the edges -/

section Classes

variable {next prev : α → List α} {nodes : List α} {v w x y : α}

/-- The one vertex leads to the other. -/
def Leads (next : α → List α) : α → α → Prop := Relation.ReflTransGen fun v w => w ∈ next v

/-- Two vertices lead to each other. -/
def Entwined (next : α → List α) (v w : α) : Prop := Leads next v w ∧ Leads next w v

theorem Entwined.refl (next : α → List α) (v : α) : Entwined next v v := ⟨.refl, .refl⟩

theorem Entwined.symm (h : Entwined next v w) : Entwined next w v := ⟨h.2, h.1⟩

theorem Entwined.trans (h : Entwined next v w) (h' : Entwined next w x) : Entwined next v x :=
  ⟨h.1.trans h'.1, h'.2.trans h.2⟩

/-- Where no edge leaves the nodes, they are no restriction. -/
theorem leadsWithin_iff_leads (hclosed : ∀ {v w}, w ∈ next v → w ∈ nodes) :
    LeadsWithin next nodes v w ↔ Leads next v w :=
  ⟨Relation.ReflTransGen.mono (fun _ _ hstep => hstep.1) v w,
    Relation.ReflTransGen.mono (fun _ _ hstep => ⟨hstep, hclosed hstep⟩) v w⟩

/-- Vertices that a search against the edges has still to sort into classes: they are whole classes,
all of them are candidates, and each class comes before what it leads to. -/
structure Unsorted (next : α → List α) (unseen candidates : List α) : Prop where
  nodup : unseen.Nodup
  candidates_nodup : candidates.Nodup
  mem_candidates : ∀ {v}, v ∈ unseen → v ∈ candidates
  whole : ∀ {v w}, v ∈ unseen → Entwined next v w → w ∈ unseen
  leader : ∀ {v w}, v ∈ unseen → w ∈ unseen → Leads next v w →
    ∃ u, Entwined next v u ∧ NoLater candidates u w

variable {unseen candidates : List α}

/-- What leads to the first candidate is in its class. -/
theorem Unsorted.entwined_head (h : Unsorted next unseen (v :: candidates)) (hx : x ∈ unseen)
    (hv : v ∈ unseen) (hxv : Leads next x v) : Entwined next x v := by
  obtain ⟨u, hu, rfl | hbefore⟩ := h.leader hx hv hxv
  · exact hu
  · -- nothing comes before the first candidate
    have hnot := (List.nodup_cons.1 h.candidates_nodup).1
    cases hbefore with
    | cons _ hsub => exact absurd (hsub.subset (by simp)) hnot
    | cons_cons _ hsub => exact absurd (List.singleton_sublist.1 hsub) hnot

/-- What the first candidate finds against the edges is its class. -/
theorem Unsorted.leadsWithin_iff (h : Unsorted next unseen (v :: candidates))
    (hprev : ∀ {v w}, v ∈ prev w ↔ w ∈ next v) (hv : v ∈ unseen) :
    LeadsWithin prev unseen v x ↔ Entwined next v x := by
  constructor
  · intro hvx
    have hback : Leads next x v := by
      have hleads : Relation.ReflTransGen (fun w v => w ∈ next v) v x :=
        Relation.ReflTransGen.mono (fun _ _ hstep => hprev.1 hstep.1) v x hvx
      exact Relation.reflTransGen_swap.1 hleads
    exact (h.entwined_head (hvx.mem hv) hv hback).symm
  · rintro ⟨hvx, hxv⟩
    have hstep : ∀ y, Leads next y v → Leads next v y → LeadsWithin prev unseen v y := by
      intro y hyv
      induction hyv using Relation.ReflTransGen.head_induction_on with
      | refl => exact fun _ => .refl
      | @head y z hyz hzv ih =>
        intro hvy
        refine (ih (hvy.tail hyz)).tail ⟨hprev.2 hyz, ?_⟩
        exact h.whole hv ⟨hvy, .head hyz hzv⟩
    exact hstep x hxv hvx

theorem Unsorted.of_not_mem (h : Unsorted next unseen (v :: candidates)) (hv : v ∉ unseen) :
    Unsorted next unseen candidates where
  nodup := h.nodup
  candidates_nodup := (List.nodup_cons.1 h.candidates_nodup).2
  mem_candidates {x} hx := by
    rcases List.mem_cons.1 (h.mem_candidates hx) with rfl | hx'
    · exact absurd hx hv
    · exact hx'
  whole := h.whole
  leader {x w} hx hw hxw := by
    obtain ⟨u, hu, hnoLater⟩ := h.leader hx hw hxw
    refine ⟨u, hu, hnoLater.imp_right fun hsub => ?_⟩
    cases hsub with
    | cons _ hsub => exact hsub
    | cons_cons => exact absurd (h.whole hx hu) hv

/-- Without the class of the first candidate, the rest is still unsorted. -/
theorem Unsorted.of_enter {between : List α} {branches : List (Tree α)}
    (h : Unsorted next unseen (v :: candidates)) (hprev : ∀ {v w}, v ∈ prev w ↔ w ∈ next v)
    (hv : v ∈ unseen) (hsub : between.Sublist unseen)
    (hentered : Entered prev unseen between branches v) :
    Unsorted next between candidates := by
  have hmem : ∀ {x}, x ∈ between ↔ x ∈ unseen ∧ ¬Entwined next v x := by
    intro x
    rw [hentered.between_iff, hentered.mem_iff, h.leadsWithin_iff hprev hv]
  have hne : v ∉ between := fun hmem' => (hmem.1 hmem').2 (.refl next v)
  have hrest : Unsorted next between (v :: candidates) := by
    refine ⟨h.nodup.sublist hsub, h.candidates_nodup, fun hx => h.mem_candidates (hmem.1 hx).1,
      fun {x y} hx hxy => ?_, fun hx hw => h.leader (hmem.1 hx).1 (hmem.1 hw).1⟩
    obtain ⟨hx, hnot⟩ := hmem.1 hx
    exact hmem.2 ⟨h.whole hx hxy, fun hvy => hnot (hvy.trans hxy.symm)⟩
  exact hrest.of_not_mem hne

/-- The trees are the classes of the listed vertices, and none is led to by a later one. -/
structure Sorts (next : α → List α) (unseen : List α) (forest : List (Tree α)) : Prop where
  isClass : ∀ tree ∈ forest, ∃ v ∈ unseen, ∀ x, x ∈ tree.preorder ↔ Entwined next v x
  covers : ∀ x ∈ unseen, ∃ tree ∈ forest, x ∈ tree.preorder
  ordered : forest.Pairwise fun tree tree' =>
    ∀ x ∈ tree.preorder, ∀ y ∈ tree'.preorder, ¬Leads next y x

variable [DecidableEq α]

/-- **A search against the edges sorts the vertices into classes**, if each class comes as a
candidate before what it leads to. -/
theorem Explored.sorts {rest : List α} {forest : List (Tree α)}
    (h : Explored prev unseen candidates forest rest) (hprev : ∀ {v w}, v ∈ prev w ↔ w ∈ next v)
    (hunsorted : Unsorted next unseen candidates) : Sorts next unseen forest := by
  induction h with
  | nil =>
    exact ⟨nofun, fun x hx => absurd (hunsorted.mem_candidates hx) List.not_mem_nil, .nil⟩
  | seen hv _ ih => exact ih (hunsorted.of_not_mem hv)
  | @enter unseen between candidates rest branches forest v hv hbelow hrest ih ih' =>
    have hentered := (hbelow.finds (hunsorted.nodup.erase v)).entered hunsorted.nodup
    have hsorts := ih' (hunsorted.of_enter hprev hv (hbelow.sublist.trans List.erase_sublist) hentered)
    have htree : ∀ x, x ∈ (Tree.node v branches).preorder ↔ Entwined next v x := by
      intro x
      rw [← (Tree.perm_postorder _).mem_iff, Tree.postorder, hentered.mem_iff,
        hunsorted.leadsWithin_iff hprev hv]
    refine ⟨List.forall_mem_cons.2 ⟨⟨v, hv, htree⟩, fun tree ht => ?_⟩, fun x hx => ?_,
      List.pairwise_cons.2 ⟨fun tree ht x hx y hy hyx => ?_, hsorts.ordered⟩⟩
    · obtain ⟨w, hw, hclass⟩ := hsorts.isClass tree ht
      exact ⟨w, (hentered.between_iff.1 hw).1, hclass⟩
    · by_cases hhere : Entwined next v x
      · exact ⟨_, List.mem_cons_self, (htree x).2 hhere⟩
      · have hx' : x ∈ between := by
          rw [hentered.between_iff, hentered.mem_iff, hunsorted.leadsWithin_iff hprev hv]
          exact ⟨hx, hhere⟩
        obtain ⟨tree, ht, hmem⟩ := hsorts.covers x hx'
        exact ⟨tree, List.mem_cons_of_mem _ ht, hmem⟩
    · -- what leads into the first class belongs to it
      obtain ⟨w, hw, hclass⟩ := hsorts.isClass tree ht
      have hwy := (hclass y).1 hy
      have hvx := (htree x).1 hx
      obtain ⟨hw', hnot⟩ := hentered.between_iff.1 hw
      rw [hentered.mem_iff, hunsorted.leadsWithin_iff hprev hv] at hnot
      exact hnot (hunsorted.entwined_head hw' hv (hwy.1.trans (hyx.trans hvx.2))).symm

end Classes

/-! ### The components of a graph -/

namespace Digraph

variable [DecidableEq α] {g : Digraph α} {v w : α} {group : List α}

theorem mem_nodes_of_mem_next (h : w ∈ g.next v) : w ∈ g.nodes :=
  (g.mem_of_mem_edges _ (mem_next.1 h)).2

theorem mem_next_invert : v ∈ g.invert.next w ↔ w ∈ g.next v := by
  rw [mem_next, mem_next, invert, List.mem_map]
  constructor
  · rintro ⟨⟨_, _⟩, he, ⟨⟩⟩
    exact he
  · exact fun he => ⟨_, he, rfl⟩

theorem mem_nodes_of_entwined (hv : v ∈ g.nodes) (h : Entwined g.next v w) : w ∈ g.nodes := by
  cases h.1 with
  | refl => exact hv
  | tail _ hstep => exact mem_nodes_of_mem_next hstep

/-- Both searches of a graph have seen everything in the end. -/
theorem explored_spanningForest (next : α → List α) (roots : List α) :
    Explored next g.nodes roots (spanningForest next g.nodes roots)
      (grow next g.nodes.length g.nodes roots).2 :=
  explored_grow roots (Nat.le_refl _)

/-- What was left last is a good order of candidates. -/
theorem unsorted_finishingOrder : Unsorted g.next g.nodes g.finishingOrder.reverse := by
  have hexplored := g.explored_spanningForest (fun v => (g.next v).reverse) g.nodes
  have hfinds := hexplored.finds g.nodes_nodup
  have hleads : ∀ {v w},
      LeadsWithin (fun v => (g.next v).reverse) g.nodes v w ↔ Leads g.next v w := by
    intro v w
    rw [leadsWithin_iff_leads fun hw => mem_nodes_of_mem_next (List.mem_reverse.1 hw)]
    exact iff_of_eq (congrArg (fun r => Relation.ReflTransGen r v w) (by simp))
  have hmem : ∀ {v}, v ∈ g.nodes → v ∈ g.finishingOrder := fun {v} hv =>
    hfinds.mem_iff.2 ⟨v, hv, hv, .refl⟩
  refine ⟨g.nodes_nodup, List.nodup_reverse.2 hfinds.nodup, fun hv => List.mem_reverse.2 (hmem hv),
    mem_nodes_of_entwined, fun {v w} hv _ hvw => ?_⟩
  obtain ⟨u, hu, hafter⟩ := hexplored.exists_left_after g.nodes_nodup (hmem hv) (hleads.2 hvw)
  refine ⟨u, ⟨hleads.1 hu.1, hleads.1 hu.2⟩, ?_⟩
  rcases hafter with rfl | hsub
  · exact .inl rfl
  · exact .inr (List.reverse_sublist.2 hsub)

/-- The trees of the second search, in their order. -/
theorem sorts_spanningForest :
    Sorts g.next g.nodes (spanningForest g.invert.next g.nodes g.finishingOrder.reverse) :=
  (g.explored_spanningForest g.invert.next g.finishingOrder.reverse).sorts mem_next_invert
    unsorted_finishingOrder

/-- The component of a tree of the second search has the vertices of the tree. -/
theorem exists_tree_of_mem_components (h : group ∈ g.components) :
    ∃ tree ∈ spanningForest g.invert.next g.nodes g.finishingOrder.reverse,
      ∃ v ∈ g.nodes, (∀ x, x ∈ tree.preorder ↔ Entwined g.next v x) ∧
        group = g.nodes.filter (· ∈ tree.preorder) := by
  obtain ⟨tree, htree, rfl⟩ := List.mem_map.1 h
  rw [List.mem_reverse] at htree
  obtain ⟨v, hv, hclass⟩ := sorts_spanningForest.isClass tree htree
  exact ⟨tree, htree, v, hv, hclass, rfl⟩

/-- **A component is a class of vertices that lead to each other.** -/
theorem isClass_of_mem_components (h : group ∈ g.components) :
    ∃ v ∈ group, ∀ w, w ∈ group ↔ Entwined g.next v w := by
  obtain ⟨tree, -, v, hv, hclass, rfl⟩ := exists_tree_of_mem_components h
  have hmem : ∀ w, w ∈ g.nodes.filter (· ∈ tree.preorder) ↔ Entwined g.next v w := by
    intro w
    rw [List.mem_filter, decide_eq_true_iff, hclass]
    exact and_iff_right_of_imp (mem_nodes_of_entwined hv)
  exact ⟨v, (hmem v).2 (.refl _ v), hmem⟩

/-- The vertices of a component keep the order of the graph. -/
theorem sublist_nodes_of_mem_components (h : group ∈ g.components) : group.Sublist g.nodes := by
  obtain ⟨tree, -, v, -, -, rfl⟩ := exists_tree_of_mem_components h
  exact List.filter_sublist

/-- Every vertex is in a component. -/
theorem exists_mem_components (hv : v ∈ g.nodes) : ∃ group ∈ g.components, v ∈ group := by
  obtain ⟨tree, htree, hmem⟩ := sorts_spanningForest.covers v hv
  refine ⟨_, List.mem_map.2 ⟨tree, List.mem_reverse.2 htree, rfl⟩, ?_⟩
  exact List.mem_filter.2 ⟨hv, decide_eq_true hmem⟩

/-- **No component leads to a later one.** -/
theorem components_pairwise :
    g.components.Pairwise fun group group' => ∀ v ∈ group, ∀ w ∈ group', ¬Leads g.next v w := by
  refine List.pairwise_map.2 (List.pairwise_reverse.2 (sorts_spanningForest.ordered.imp ?_))
  intro tree tree' h v hv w hw
  rw [List.mem_filter, decide_eq_true_iff] at hv hw
  exact h w hw.2 v hv.2

end Digraph

end SchemaGraph
