import Mathlib.Data.List.Pairwise
import SchemaGraph.Proofs.CanonicalForm
import SchemaGraph.Proofs.Digraph.Duality
import SchemaGraph.Proofs.Reachability

/-!
# The order of declarations

The groups in which named nodes can be declared (`SchemaGraph.Generation.declarationOrder_groups`):
each named node that can be reached is in one group, the nodes of a group are those that depend on each
other, and no group depends on a later one.

Named nodes may depend on each other by way of nodes without names, so none of this can be told
from edges between named nodes. It is a fact about paths: the groups are the components of all
reachable nodes, with the nodes that have no name left out in the end.
-/

namespace SchemaGraph

namespace Generation

variable {g : Generation} {r s : Ref}

/-- The one node is the other or has it below, directly or by way of other nodes. -/
def DependsOn (g : Generation) : Ref → Ref → Prop :=
  Relation.ReflTransGen fun r c => c ∈ g.childrenAt r.index

theorem Reaches.of_dependsOn (hr : g.Reaches r) (h : g.DependsOn r s) : g.Reaches s := by
  induction h with
  | refl => exact hr
  | tail _ hstep ih => exact ih.of_mem_childrenAt hstep

/-! ### The graph of dependencies -/

/-- The dependencies of the reachable nodes always form a graph, since children of reachable nodes
can be reached. -/
theorem dependencies_ends : ∃ d, g.dependencies = .ok d ∧ d.nodes = g.reachable ∧
    ∀ {r s}, s ∈ d.next r ↔ g.Reaches r ∧ s ∈ g.childrenAt r.index := by
  have hnodes : g.reachable.eraseDups = g.reachable := eraseDups_eq_self_of_nodup nodup_reachable
  refine ⟨_, Digraph.ofSuccessors_eq_ok reachable_closed false, hnodes, fun {r s} => ?_⟩
  rw [if_neg Bool.false_ne_true, Digraph.mem_next, Digraph.ofClosed, Digraph.mem_edgesFrom, hnodes,
    mem_reachable_iff]

section Dependencies

variable {d : Digraph Ref} (hnext : ∀ {r s}, s ∈ d.next r ↔ g.Reaches r ∧ s ∈ g.childrenAt r.index)

include hnext

/-- From reachable nodes, leading to a node is depending on it. -/
theorem leads_iff_dependsOn (hr : g.Reaches r) : Leads d.next r s ↔ g.DependsOn r s := by
  constructor
  · exact Relation.ReflTransGen.mono (fun _ _ hstep => (hnext.1 hstep).2) r s
  · intro h
    induction h with
    | refl => exact .refl
    | tail hleads hstep ih => exact ih.tail (hnext.2 ⟨hr.of_dependsOn hleads, hstep⟩)

theorem entwined_iff_dependsOn (hr : g.Reaches r) (hs : g.Reaches s) :
    Entwined d.next r s ↔ g.DependsOn r s ∧ g.DependsOn s r :=
  and_congr (leads_iff_dependsOn hnext hr) (leads_iff_dependsOn hnext hs)

end Dependencies

/-! ### The groups -/

theorem mem_named_iff : r ∈ g.named ↔ g.Reaches r ∧ (g.node? r.index).any Node.isNamed = true := by
  rw [named, matching, List.mem_filter, mem_reachable_iff]

/-- How the groups of named nodes are made of the components. -/
structure Groups (g : Generation) (groups : List (List Ref)) : Prop where
  nonempty : ∀ group ∈ groups, group ≠ []
  sublist : ∀ group ∈ groups, group.Sublist g.named
  covers : ∀ r ∈ g.named, ∃ group ∈ groups, r ∈ group
  same_iff : ∀ group ∈ groups, ∀ r ∈ group, ∀ s ∈ g.named,
    s ∈ group ↔ g.DependsOn r s ∧ g.DependsOn s r
  ordered : groups.Pairwise fun group group' => ∀ r ∈ group, ∀ s ∈ group', ¬g.DependsOn r s

/-- **Every generation has an order of declarations.** -/
theorem declarationOrder_ends : ∃ groups, g.declarationOrder = .ok groups ∧ g.Groups groups := by
  obtain ⟨d, hd, hnodes, hnext⟩ := g.dependencies_ends
  let isNamed (r : Ref) : Bool := (g.node? r.index).any Node.isNamed
  refine ⟨(d.components.map (·.filter isNamed)).filter (!·.isEmpty), by rw [declarationOrder, hd]; rfl, ?_⟩
  -- a group is what is named of a component
  have hgroup : ∀ {group}, group ∈ (d.components.map (·.filter isNamed)).filter (!·.isEmpty) →
      group ≠ [] ∧ ∃ component ∈ d.components, group = component.filter isNamed := by
    intro group h
    obtain ⟨hmem, hne⟩ := List.mem_filter.1 h
    obtain ⟨component, hcomponent, rfl⟩ := List.mem_map.1 hmem
    exact ⟨by simpa using hne, component, hcomponent, rfl⟩
  have hreaches : ∀ {component}, component ∈ d.components → ∀ r ∈ component, g.Reaches r := by
    intro component h r hr
    rw [← mem_reachable_iff, ← hnodes]
    exact (Digraph.sublist_nodes_of_mem_components h).subset hr
  refine ⟨fun group h => (hgroup h).1, fun group h => ?_, fun r hr => ?_, fun group h r hr s hs => ?_, ?_⟩
  · obtain ⟨-, component, hcomponent, rfl⟩ := hgroup h
    exact (hnodes ▸ Digraph.sublist_nodes_of_mem_components hcomponent).filter _
  · obtain ⟨hreach, hnamed⟩ := mem_named_iff.1 hr
    obtain ⟨component, hcomponent, hmem⟩ :=
      Digraph.exists_mem_components (hnodes ▸ mem_reachable_iff.2 hreach : r ∈ d.nodes)
    have hr' : r ∈ component.filter isNamed := List.mem_filter.2 ⟨hmem, hnamed⟩
    refine ⟨_, List.mem_filter.2 ⟨List.mem_map_of_mem hcomponent, ?_⟩, hr'⟩
    simpa using List.ne_nil_of_mem hr'
  · obtain ⟨-, component, hcomponent, rfl⟩ := hgroup h
    obtain ⟨v, hv, hclass⟩ := Digraph.isClass_of_mem_components hcomponent
    have hr' := (List.mem_filter.1 hr).1
    obtain ⟨hs', hnamed⟩ := mem_named_iff.1 hs
    rw [List.mem_filter, and_iff_left hnamed, hclass,
      ← entwined_iff_dependsOn hnext (hreaches hcomponent r hr') hs']
    exact ⟨((hclass r).1 hr').symm.trans, ((hclass r).1 hr').trans⟩
  · refine List.Pairwise.filter _ (List.pairwise_map.2 ?_)
    refine Digraph.components_pairwise.imp_of_mem fun h h' hnot r hr s hs hdepends => ?_
    have hr' := (List.mem_filter.1 hr).1
    exact hnot r hr' s (List.mem_filter.1 hs).1
      ((leads_iff_dependsOn hnext (hreaches h r hr')).2 hdepends)

namespace Groups

variable {groups : List (List Ref)} (h : g.Groups groups)

include h

/-- No node is listed twice: a node that is in two groups would lead from one to the other. -/
theorem nodup_flatten : groups.flatten.Nodup := by
  refine List.nodup_flatten.2 ⟨fun group hgroup => ?_, h.ordered.imp fun hnot r hr hr' => ?_⟩
  · exact ((h.sublist group hgroup).trans List.filter_sublist).nodup nodup_reachable
  · exact hnot r hr r hr' .refl

theorem mem_flatten_iff : r ∈ groups.flatten ↔ r ∈ g.named := by
  rw [List.mem_flatten]
  exact ⟨fun ⟨group, hgroup, hr⟩ => (h.sublist group hgroup).subset hr, h.covers r⟩

/-- What a node depends on is not in a later group. -/
theorem le_of_dependsOn {i j : Nat} {group group' : List Ref} (hi : groups[i]? = some group)
    (hj : groups[j]? = some group') (hr : r ∈ group) (hs : s ∈ group') (hrs : g.DependsOn r s) :
    j ≤ i := by
  by_contra hlt
  obtain ⟨hi', rfl⟩ := List.getElem?_eq_some_iff.1 hi
  obtain ⟨hj', rfl⟩ := List.getElem?_eq_some_iff.1 hj
  exact List.pairwise_iff_getElem.1 h.ordered i j hi' hj' (by omega) r hr s hs hrs

end Groups

section Acyclic

variable (hlt : ∀ {index c}, c ∈ g.childrenAt index → c.index < index)

include hlt

/-- Where children come before their parents, a node depends on itself and on nodes before it. -/
theorem DependsOn.eq_or_lt (h : g.DependsOn r s) : s = r ∨ s.index < r.index := by
  induction h with
  | refl => exact .inl rfl
  | tail _ hstep ih =>
    have hbefore := hlt hstep
    rcases ih with rfl | ih
    · exact .inr hbefore
    · exact .inr (Nat.lt_trans hbefore ih)

/-- So there are no cycles, and each group is one node. -/
theorem declarationOrder_singletons :
    ∃ declared : List Ref, g.declarationOrder = .ok (declared.map ([·])) := by
  obtain ⟨groups, horder, h⟩ := g.declarationOrder_ends
  have hone : ∀ group ∈ groups, ∃ r, group = [r] := by
    intro group hgroup
    obtain ⟨r, hr⟩ := List.exists_mem_of_ne_nil _ (h.nonempty group hgroup)
    have hsame : ∀ s ∈ group, s = r := by
      intro s hs
      obtain ⟨hrs, hsr⟩ :=
        (h.same_iff group hgroup r hr s ((h.sublist group hgroup).subset hs)).1 hs
      rcases hrs.eq_or_lt hlt with heq | hbefore
      · exact heq
      · exact (hsr.eq_or_lt hlt).elim Eq.symm fun hafter => absurd hafter (Nat.lt_asymm hbefore)
    have hnodup : group.Nodup := (List.nodup_flatten.1 h.nodup_flatten).1 group hgroup
    exact ⟨r, List.perm_singleton.1 ((List.perm_ext_iff_of_nodup hnodup (List.nodup_singleton r)).2
      fun s => ⟨fun hs => List.mem_singleton.2 (hsame s hs), fun hs => List.mem_singleton.1 hs ▸ hr⟩)⟩
  refine ⟨groups.flatten, horder.trans (congrArg _ ?_)⟩
  clear horder h
  induction groups with
  | nil => rfl
  | cons group rest ih =>
    obtain ⟨⟨r, rfl⟩, hrest⟩ := List.forall_mem_cons.1 hone
    exact congrArg ([r] :: ·) (ih hrest)

end Acyclic

/-- **The order of declarations.** There always is one. It lists every class, enum and union that can
be reached once, and nothing else; two of them are in one group exactly if each depends on the other,
be it by way of nodes without names; what a node depends on is not in a later group; no group is
empty, and the nodes of a group are in the order of the walk. -/
theorem declarationOrder_groups (g : Generation) : ∃ groups, g.declarationOrder = .ok groups ∧
    groups.flatten.Nodup ∧
    (∀ r, r ∈ groups.flatten ↔ g.Reaches r ∧
      ∃ n, g.node? r.index = some n ∧ (n.kind = .object ∨ n.kind = .enum ∨ n.kind = .union)) ∧
    (∀ r ∈ groups.flatten, ∀ s ∈ groups.flatten,
      (∃ group ∈ groups, r ∈ group ∧ s ∈ group) ↔ g.DependsOn r s ∧ g.DependsOn s r) ∧
    (∀ (i j : Nat) (group group' : List Ref), groups[i]? = some group → groups[j]? = some group' →
      ∀ r ∈ group, ∀ s ∈ group', g.DependsOn r s → j ≤ i) ∧
    ∀ group ∈ groups, group ≠ [] ∧ group.Sublist g.reachable := by
  obtain ⟨groups, horder, h⟩ := g.declarationOrder_ends
  have hkind : ∀ n : Node, n.isNamed = true ↔ n.kind = .object ∨ n.kind = .enum ∨ n.kind = .union := by
    intro n
    cases n <;> simp [Node.isNamed, Node.kind]
  refine ⟨groups, horder, h.nodup_flatten, fun r => ?_, fun r hr s hs => ?_,
    fun i j group group' hi hj r hr s hs => h.le_of_dependsOn hi hj hr hs,
    fun group hgroup => ⟨h.nonempty group hgroup,
      (h.sublist group hgroup).trans List.filter_sublist⟩⟩
  · rw [h.mem_flatten_iff, mem_named_iff, Option.any_eq_true]
    simp only [hkind]
  · have hs' := h.mem_flatten_iff.1 hs
    constructor
    · rintro ⟨group, hgroup, hr', hs''⟩
      exact (h.same_iff group hgroup r hr' s hs').1 hs''
    · intro hboth
      obtain ⟨group, hgroup, hr'⟩ := List.mem_flatten.1 hr
      exact ⟨group, hgroup, hr', (h.same_iff group hgroup r hr' s hs').2 hboth⟩

end Generation

end SchemaGraph
