import SchemaGraph.Proofs.Collections
import SchemaGraph.Proofs.Digraph.Components

/-!
# The two orders of a search

What is known of the orders in which a search from one vertex meets and leaves the vertices
(`SchemaGraph.Digraph.search_orders`): both list what can be reached, and in the order of leaving the
end of an edge comes before its start, unless it leads back there.

The last part is not true of paths. A vertex on a cycle may be left long before what it leads to by way
of the vertex that was entered first. Where no cycle can be reached it holds of paths as well
(`SchemaGraph.Digraph.idxOf_lt_of_acyclic`), because each edge of a path puts its end first.

The same is known of a search of the whole graph, whose order of leaving is what the test for cycles
looks at. The test finds an edge that does not lead down in that order, and there is one exactly if
there is a cycle (`SchemaGraph.Digraph.isCyclic_iff`).
-/

namespace SchemaGraph

variable {α : Type} [DecidableEq α]

/-- In a list without repeats, what comes first has the smaller index. -/
theorem idxOf_lt_of_sublist {order : List α} {v w : α} (hnd : order.Nodup)
    (h : [v, w].Sublist order) : order.idxOf v < order.idxOf w := by
  have hpairwise := pairwise_idxOf_eraseDups order
  rw [eraseDups_eq_self_of_nodup hnd] at hpairwise
  simpa using hpairwise.sublist h

/-- A search from one node grows one tree. -/
theorem Explored.exists_tree {next : α → List α} {unseen rest : List α} {forest : List (Tree α)} {v : α}
    (h : Explored next unseen [v] forest rest) (hv : v ∈ unseen) :
    ∃ branches, forest = [.node v branches] := by
  cases h with
  | seen hnot => exact absurd hv hnot
  | enter _ _ hrest =>
    cases hrest
    exact ⟨_, rfl⟩

namespace Digraph

variable {g : Digraph α} {r v w : α}

/-- The search from one vertex, as a tree that has the vertex at its root. -/
theorem exists_tree_of_mem (hr : r ∈ g.nodes) :
    ∃ branches, spanningForest g.next g.nodes [r] = [.node r branches] :=
  (g.explored_spanningForest g.next [r]).exists_tree hr

/-! ### What is listed -/

theorem mem_postorderFrom_iff (hr : r ∈ g.nodes) : v ∈ g.postorderFrom r ↔ Leads g.next r v := by
  have hfinds := (g.explored_spanningForest g.next [r]).finds g.nodes_nodup
  rw [postorderFrom, hfinds.mem_iff]
  simp only [List.mem_singleton, exists_eq_left, hr, true_and]
  exact leadsWithin_iff_leads mem_nodes_of_mem_next

theorem postorderFrom_perm : (g.postorderFrom r).Perm (g.preorderFrom r) := perm_postorderAll _

theorem mem_preorderFrom_iff (hr : r ∈ g.nodes) : v ∈ g.preorderFrom r ↔ Leads g.next r v := by
  rw [← postorderFrom_perm.mem_iff, mem_postorderFrom_iff hr]

theorem nodup_postorderFrom : (g.postorderFrom r).Nodup :=
  ((g.explored_spanningForest g.next [r]).finds g.nodes_nodup).nodup

theorem nodup_preorderFrom : (g.preorderFrom r).Nodup :=
  postorderFrom_perm.nodup_iff.1 nodup_postorderFrom

theorem head?_preorderFrom (hr : r ∈ g.nodes) : (g.preorderFrom r).head? = some r := by
  obtain ⟨branches, htree⟩ := exists_tree_of_mem hr
  rw [preorderFrom, htree]
  rfl

theorem getLast?_postorderFrom (hr : r ∈ g.nodes) : (g.postorderFrom r).getLast? = some r := by
  obtain ⟨branches, htree⟩ := exists_tree_of_mem hr
  rw [postorderFrom, htree, postorderAll, postorderAll, List.append_nil, Tree.postorder,
    List.getLast?_concat]

theorem preorder_eq_ok [Labelled α] (hr : r ∈ g.nodes) : g.preorder r = .ok (g.preorderFrom r) := by
  rw [preorder, requireVertex, if_pos hr]
  rfl

theorem postorder_eq_ok [Labelled α] (hr : r ∈ g.nodes) :
    g.postorder r = .ok (g.postorderFrom r) := by
  rw [postorder, requireVertex, if_pos hr]
  rfl

/-! ### The order of leaving -/

/-- **The end of an edge is left first**, unless it leads back to the start. -/
theorem idxOf_lt_of_mem_next (hr : r ∈ g.nodes) (hv : Leads g.next r v) (hvw : w ∈ g.next v)
    (hback : ¬Leads g.next w v) : (g.postorderFrom r).idxOf w < (g.postorderFrom r).idxOf v := by
  have hexplored := g.explored_spanningForest g.next [r]
  have hw : w ∈ g.nodes := mem_nodes_of_mem_next hvw
  rcases hexplored.leadsWithin_or_noLater g.nodes_nodup ((mem_postorderFrom_iff hr).2 hv) hvw hw with
    hleads | rfl | hsub
  · exact absurd ((leadsWithin_iff_leads mem_nodes_of_mem_next).1 hleads) hback
  · exact absurd .refl hback
  · exact idxOf_lt_of_sublist nodup_postorderFrom hsub

/-- The vertex leads to nothing that lies on a cycle. -/
def LeadsToNoCycle (g : Digraph α) (v : α) : Prop :=
  ∀ u, Leads g.next v u → ¬Relation.TransGen (fun v w => w ∈ g.next v) u u

/-- **Where no cycle can be reached, everything that a vertex leads to is left before it.** The
induction is on the path, from its start. -/
theorem idxOf_lt_of_acyclic (hr : r ∈ g.nodes) (hv : Leads g.next r v) (hacyclic : g.LeadsToNoCycle v)
    (hvw : Leads g.next v w) (hne : w ≠ v) :
    (g.postorderFrom r).idxOf w < (g.postorderFrom r).idxOf v := by
  induction hvw using Relation.ReflTransGen.head_induction_on with
  | refl => exact absurd rfl hne
  | @head v u hvu huw ih =>
    have hback : ¬Leads g.next u v := fun huv => hacyclic v .refl (.head' hvu huv)
    have hstep := idxOf_lt_of_mem_next hr hv hvu hback
    by_cases hwu : w = u
    · exact hwu ▸ hstep
    · have hacyclic' : g.LeadsToNoCycle u := fun x hux => hacyclic x (.head hvu hux)
      exact Nat.lt_trans (ih (hv.tail hvu) hacyclic' hwu) hstep

/-- **The two orders of a search.** From every vertex of every graph, both list exactly the vertices
that can be reached, each once. The vertex itself is met first and left last. Of the ends of an edge
the second is left before the first, unless it leads back there; so a vertex from which no cycle can be
reached is left after all that it depends on. -/
theorem search_orders [Labelled α] (g : Digraph α) {r : α} (hr : r ∈ g.nodes) :
    ∃ met left, g.preorder r = .ok met ∧ g.postorder r = .ok left ∧
      (met.Nodup ∧ ∀ v, v ∈ met ↔ Leads g.next r v) ∧
      (left.Nodup ∧ ∀ v, v ∈ left ↔ Leads g.next r v) ∧
      met.head? = some r ∧ left.getLast? = some r ∧
      (∀ v ∈ left, ∀ w ∈ left, w ∈ g.next v → ¬Leads g.next w v → left.idxOf w < left.idxOf v) ∧
      ∀ v ∈ left, g.LeadsToNoCycle v → ∀ w, Leads g.next v w → w ≠ v → left.idxOf w < left.idxOf v := by
  refine ⟨g.preorderFrom r, g.postorderFrom r, preorder_eq_ok hr, postorder_eq_ok hr,
    ⟨nodup_preorderFrom, fun v => mem_preorderFrom_iff hr⟩,
    ⟨nodup_postorderFrom, fun v => mem_postorderFrom_iff hr⟩, head?_preorderFrom hr,
    getLast?_postorderFrom hr, fun v hv w _ hvw hback => ?_, fun v hv hacyclic w hvw hne => ?_⟩
  · exact idxOf_lt_of_mem_next hr ((mem_postorderFrom_iff hr).1 hv) hvw hback
  · exact idxOf_lt_of_acyclic hr ((mem_postorderFrom_iff hr).1 hv) hacyclic hvw hne

/-- Two vertices on a cycle, of which the first leads to two more, one above the other. -/
def spurred : Digraph Nat where
  nodes := [0, 1, 2, 3]
  edges := [(0, 1), (1, 0), (0, 3), (0, 2), (2, 3)]
  nodes_nodup := by decide
  edges_nodup := by decide
  mem_of_mem_edges := by decide

/-- A search that enters the cycle at its second vertex leaves the first one after both that are not on
the cycle, in spite of the order of the edges, and before the second one, in spite of the edge. -/
theorem search_orders_spurred : ∃ left, spurred.postorder 1 = .ok left ∧
    left.idxOf 3 < left.idxOf 2 ∧ left.idxOf 2 < left.idxOf 0 ∧ left.idxOf 0 < left.idxOf 1 ∧
      1 ∈ spurred.next 0 := by
  obtain ⟨_, left, -, hleft, -, ⟨-, hmem⟩, -, -, hedge, -⟩ :=
    search_orders spurred (r := 1) (by decide)
  have hleads : ∀ {v w : Nat}, v ∈ spurred.nodes →
      (Leads spurred.next v w ↔ w ∈ spurred.preorderFrom v) := fun hv =>
    (mem_preorderFrom_iff hv).symm
  have hlisted : ∀ v ∈ [0, 1, 2, 3], v ∈ left := fun v hv =>
    (hmem v).2 ((hleads (by decide)).2 (by revert v; decide))
  refine ⟨left, hleft, ?_, ?_, ?_, by decide⟩
  · exact hedge 2 (hlisted 2 (by decide)) 3 (hlisted 3 (by decide)) (by decide)
      (mt (hleads (by decide)).1 (by decide))
  · exact hedge 0 (hlisted 0 (by decide)) 2 (hlisted 2 (by decide)) (by decide)
      (mt (hleads (by decide)).1 (by decide))
  · obtain rfl := Except.ok.inj hleft
    decide

/-! ### Cycles -/

/-- In a search of the whole graph, the end of an edge is left first unless it leads back. -/
theorem idxOf_finishingOrder_lt (hvw : w ∈ g.next v) (hback : ¬Leads g.next w v) :
    g.finishingOrder.idxOf w < g.finishingOrder.idxOf v := by
  have hexplored := g.explored_spanningForest (fun v => (g.next v).reverse) g.nodes
  have hfinds := hexplored.finds g.nodes_nodup
  have hv : v ∈ g.nodes := (g.mem_of_mem_edges _ (mem_next.1 hvw)).1
  have hw : w ∈ g.nodes := mem_nodes_of_mem_next hvw
  rcases hexplored.leadsWithin_or_noLater g.nodes_nodup (hfinds.mem_iff.2 ⟨v, hv, hv, .refl⟩)
    (List.mem_reverse.2 hvw) hw with hleads | rfl | hsub
  · exact absurd (Relation.ReflTransGen.mono (fun _ _ h => List.mem_reverse.1 h.1) w v hleads) hback
  · exact absurd .refl hback
  · exact idxOf_lt_of_sublist hfinds.nodup hsub

/-- **The test for cycles finds exactly the cycles**, also those of one vertex. -/
theorem isCyclic_iff : g.isCyclic = true ↔ ∃ v, Relation.TransGen (fun v w => w ∈ g.next v) v v := by
  rw [isCyclic, List.any_eq_true]
  constructor
  · rintro ⟨⟨v, w⟩, hmem, hle⟩
    have hvw : w ∈ g.next v := mem_next.2 hmem
    have hback : Leads g.next w v := by
      by_contra hnot
      exact absurd (of_decide_eq_true hle) (Nat.not_le.2 (idxOf_finishingOrder_lt hvw hnot))
    exact ⟨v, .head' hvw hback⟩
  · rintro ⟨v, hcycle⟩
    by_contra hnone
    -- every edge would lead down in the order of leaving, and so would the cycle
    have hstep : ∀ {x y}, y ∈ g.next x → g.finishingOrder.idxOf y < g.finishingOrder.idxOf x := by
      intro x y hxy
      by_contra hle
      exact hnone ⟨(x, y), mem_next.1 hxy, decide_eq_true (Nat.not_lt.1 hle)⟩
    have hdown : ∀ {y}, Relation.TransGen (fun v w => w ∈ g.next v) v y →
        g.finishingOrder.idxOf y < g.finishingOrder.idxOf v := by
      intro y hvy
      induction hvy with
      | single hedge => exact hstep hedge
      | tail _ hedge ih => exact Nat.lt_trans (hstep hedge) ih
    exact Nat.lt_irrefl _ (hdown hcycle)
end Digraph

end SchemaGraph
